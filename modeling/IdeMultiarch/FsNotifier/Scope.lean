import IdeMultiarch.FsNotifier.Consistency

/-!
# fsnotifier - the scope of the watched directories

A flat root is to be watched without its subdirectories.  Registration keeps to that, but a
directory event makes {lit}`process_inotify_event` walk the new directory whatever the node it
happened on belongs to, and a registration that fails leaves behind what it has added below the
nodes of other roots.  Apart from these two steps every watched directory is in the scope of
a registered root.

Main results:

- Theorem {lit}`wp_walkTree_keeps`: the rule for what every step of a walk keeps.
- Theorem {lit}`wp_watch_leftover`: what a failed registration leaves behind.
- Theorem {lit}`watch_scope_sound`: in a calm session every watched directory is in scope.
- Theorem {lit}`flat_root_leaks`: a flat root whose subdirectory is watched.
-/

namespace IdeMultiarch
namespace FsNotifier

open Library

variable {σ δ : Type}

/-! ## Scope -/

/-- A recursive root is at or above the path. -/
def Covered (roots : List WatchRoot) (path : Bytes) : Prop :=
  ∃ root ∈ roots, (splitRoot root.path).1 = true ∧ isParentPath (rootPath root.path) path = true

/-- The path of a root, or a path below a recursive root. -/
def InScope (roots : List WatchRoot) (path : Bytes) : Prop :=
  (∃ root ∈ roots, path = rootPath root.path) ∨ Covered roots path

/-- Every watched path is in scope. -/
def Scoped (s : State σ) : Prop :=
  ∀ a n, s.heap.get a = some n → InScope s.roots n.path

/-- The roots of the first list are among those of the second, though perhaps with another
descriptor. -/
def SubRoots (roots roots' : List WatchRoot) : Prop :=
  ∀ root ∈ roots, ∃ root' ∈ roots', root'.path = root.path

theorem SubRoots.refl (roots : List WatchRoot) : SubRoots roots roots :=
  fun root hroot => ⟨root, hroot, rfl⟩

/-- A root keeps its path when its descriptor is set. -/
theorem SubRoots.set {roots : List WatchRoot} {i : Nat} {root : WatchRoot} (id : Int)
    (hroot : roots[i]? = some root) : SubRoots roots (roots.set i { root with id := id }) := by
  intro x hx
  obtain ⟨j, hj⟩ := List.mem_iff_getElem?.mp hx
  by_cases hij : i = j
  · subst hij
    rw [hroot] at hj
    cases hj
    have hi : i < roots.length := (List.getElem?_eq_some_iff.mp hroot).1
    exact ⟨{ root with id := id }, List.mem_iff_getElem?.mpr ⟨i, List.getElem?_set_self hi⟩, rfl⟩
  · exact ⟨x, List.mem_iff_getElem?.mpr ⟨j, by rw [List.getElem?_set_ne hij, hj]⟩, rfl⟩

theorem Covered.mono {roots roots' : List WatchRoot} {path : Bytes} (h : Covered roots path)
    (hsub : SubRoots roots roots') : Covered roots' path := by
  obtain ⟨root, hroot, hrec, hpath⟩ := h
  obtain ⟨root', hroot', heq⟩ := hsub root hroot
  exact ⟨root', hroot', by rw [heq]; exact hrec, by rw [heq]; exact hpath⟩

theorem InScope.mono {roots roots' : List WatchRoot} {path : Bytes} (h : InScope roots path)
    (hsub : SubRoots roots roots') : InScope roots' path := by
  rcases h with ⟨root, hroot, hpath⟩ | h
  · obtain ⟨root', hroot', heq⟩ := hsub root hroot
    exact Or.inl ⟨root', hroot', by rw [heq]; exact hpath⟩
  · exact Or.inr (h.mono hsub)

/-- What is below a covered path is covered. -/
theorem Covered.below {roots : List WatchRoot} {path path' : Bytes} (h : Covered roots path)
    (hbelow : isParentPath path path' = true) : Covered roots path' := by
  obtain ⟨root, hroot, hrec, hpath⟩ := h
  exact ⟨root, hroot, hrec, isParentPath_trans hpath hbelow⟩

/-- What a walk from the root reaches is in the root's scope. -/
theorem InReach.inScope {roots : List WatchRoot} (root : WatchRoot) {path : Bytes}
    (h : InReach (splitRoot root.path).1 (rootPath root.path) path) (hroot : root ∈ roots) :
    InScope roots path := by
  rcases h with rfl | ⟨hrec, hbelow⟩
  · exact Or.inl ⟨root, hroot, rfl⟩
  · exact Or.inr ⟨root, hroot, hrec, hbelow⟩

/-- The watched paths stay in scope in a step that adds nodes within the scope only. -/
theorem Scoped.of_walked {P : Bytes → Prop} {s s' : State σ} (h : Scoped s) (hw : Walked P s s')
    {roots : List WatchRoot} (hsub : SubRoots s.roots roots)
    (hborn : ∀ b n, s'.heap.get b = some n → s.heap.next ≤ b → InScope roots n.path) (limit : Bool)
    (out : Bytes) :
    Scoped { s' with roots := roots, limitReached := limit, stdout := out } := by
  intro b n' hn'
  by_cases hb : b < s.heap.next
  · obtain ⟨n, hn, hsame⟩ := hw.old hn' hb
    rw [hsame.path]
    exact (h b n hn).mono hsub
  · exact hborn b n' hn' (Nat.le_of_not_lt hb)

/-! ## What every step of a walk keeps -/

section Keeping

variable {os : Os σ δ} {capacity : Nat} {K : KernelView os capacity} {J : State σ → Prop}
  {top : Bytes} {first : Option Nat} {Name : Bytes → Prop}

/-- A parent for a directory that a walk from {lit}`top` comes to: the parent {lit}`first` that the
walk was given for the top itself, and else the node of the directory that has it as an entry. -/
structure ParentWithin (top : Bytes) (first : Option Nat) (Name : Bytes → Prop)
    (h : Heap WatchNode) (parent : Option Nat) (path : Bytes) : Prop where
  above : ParentAbove h parent path
  below : isParentPath top path = true
  entry : (parent = first ∧ path = top) ∨ ∃ p n name, parent = some p ∧ h.get p = some n ∧
    isParentPath top n.path = true ∧ Name name ∧ path = n.path ++ slash :: name

/-- The kid of a node that lies below {lit}`top` may be added. -/
theorem ParentWithin.of_entry {h : Heap WatchNode} {a : Nat} {n : WatchNode}
    (hn : h.get a = some n) (htop : isParentPath top n.path = true) {name : Bytes}
    (hname : Name name) : ParentWithin top first Name h (some a) (n.path ++ slash :: name) := by
  refine ⟨?_, isParentPath_entry name htop, Or.inr ⟨a, n, name, rfl, hn, htop, hname, rfl⟩⟩
  rintro p hp
  cases hp
  exact ⟨n, hn, isParentPath_entry name (isParentPath_refl n.path)⟩

/-- What has the descriptor of a node after a walk is this node, or one that the walk has added. -/
theorem Walked.path_of_get {P : Bytes → Prop} {t s₁ : State σ} (hw : Walked P t s₁) (h : Inv K t)
    (h₁ : Inv K s₁) {a : Nat} {n : WatchNode} (hn : t.heap.get a = some n) {b : Nat}
    {m : WatchNode} (hb : s₁.watches.get n.wd = some b) (hm : s₁.heap.get b = some m) :
    m.path = n.path ∨ P m.path := by
  by_cases hlt : b < t.heap.next
  · left
    obtain ⟨m₀, hm₀, hsame⟩ := hw.old hm hlt
    rw [Table.get_natCast] at hb
    obtain ⟨m', hm', hslot⟩ := h₁.wellLinked.slotted.of_slot hb
    rw [hm] at hm'
    cases hm'
    have hold := h.wellLinked.slotted.of_node hm₀
    rw [← hsame.wd, ← hw.capacity, hslot, hw.capacity, h.wellLinked.slotted.of_node hn] at hold
    cases hold
    rw [hn] at hm₀
    cases hm₀
    exact hsame.path
  · exact Or.inr (hw.born hm (Nat.le_of_not_lt hlt))

/-- The loop of {lit}`walk_tree` keeps what the recursive call and {lit}`rm_watch` keep. -/
theorem wp_walkEntries_keeps {walk : Bytes → Option Nat → Notifier σ Int}
    (hos : ∀ c s, c.Looks → c.reads = false → J s → Inv K s → J { s with os := (os c s.os).2 })
    (hname : ∀ dir o entry dir', (os (.readdir dir) o).1 = some (entry, dir') →
      entry.name ≠ cstr "." → entry.name ≠ cstr ".." → Name entry.name)
    (hrm : ∀ wd s, J s → Inv K s → (∀ b m, s.watches.get wd = some b → s.heap.get b = some m →
      isParentPath top m.path = true) → wp fuelOnly (rmWatch os wd true) (fun _ s' => J s') s)
    (hwalk : ∀ path parent s, J s → Inv K s → ParentWithin top first Name s.heap parent path →
      wp fuelOnly (walk path parent) (fun r s' => WalkResult K true path parent s r s' ∧ J s') s)
    {path : Bytes} (htop : isParentPath top path = true) (wd a : Nat) :
    ∀ (fuel : Nat) (dir : δ) (s : State σ) (n : WatchNode), J s → Inv K s →
      s.heap.get a = some n → n.wd = wd → n.path = path →
      wp fuelOnly (walkEntries os walk fuel dir path wd) (fun _ s' => J s') s := by
  intro fuel
  induction fuel with
  | zero => intro dir s n _ _ _ _ _; exact rfl
  | succ fuel ih =>
      intro dir s n hJ h hn hwd hpath
      unfold walkEntries
      rw [wp_bind, wp_sys]
      have h₁ := h.look (.readdir dir) trivial
      have hJ₁ := hos (.readdir dir) s trivial rfl hJ h
      cases hans : (os (.readdir dir) s.os).1 with
      | none => exact hJ₁
      | some answer =>
          obtain ⟨entry, dir'⟩ := answer
          dsimp only
          by_cases hdot : entry.name = cstr "." ∨ entry.name = cstr ".."
          · rw [if_pos hdot]
            exact ih dir' _ n hJ₁ h₁ hn hwd hpath
          · rw [if_neg hdot, wp_bind]
            have henter : ∀ (dir' : δ) (t : State σ), t.heap = s.heap → t.watches = s.watches →
                J t → Inv K t →
                wp fuelOnly (do
                    let subdirId ← walk (path ++ slash :: entry.name) (← tableGet wd)
                    if subdirId < 0 ∧ subdirId ≠ ERR_IGNORE then do
                      rmWatch os wd true
                      pure subdirId
                    else
                      walkEntries os walk fuel dir' path wd)
                  (fun _ s' => J s') t := by
              intro dir' t hheap hwatches hJt ht
              have hparent : t.watches.get wd = some a := by
                rw [hwatches, ← hwd]
                exact h.wellLinked.slotted.get_of_node hn
              rw [wp_bind, wp_tableGet, hparent, wp_bind]
              have hwithin : ParentWithin top first Name t.heap (some a)
                  (path ++ slash :: entry.name) := by
                rw [← hpath] at htop ⊢
                obtain ⟨hdot₁, hdot₂⟩ := not_or.mp hdot
                exact .of_entry (hheap ▸ hn) htop (hname _ _ _ _ hans hdot₁ hdot₂)
              refine wp_weaken (hwalk _ _ t hJt ht hwithin) fun r s₁ hr => ?_
              obtain ⟨hresult, hJr⟩ := hr
              by_cases hfail : r < 0 ∧ r ≠ ERR_IGNORE
              · rw [if_pos hfail, wp_bind]
                have hbelow : ∀ b m, s₁.watches.get wd = some b → s₁.heap.get b = some m →
                    isParentPath top m.path = true := by
                  intro b m hb hm
                  have hn' : t.heap.get a = some n := hheap ▸ hn
                  rw [← hwd] at hb
                  rcases hresult.walked.path_of_get ht hresult.inv hn' hb hm with hsame | hreach
                  · rw [hsame, hpath]
                    exact htop
                  · rcases hreach.of_entry with rfl | ⟨-, hbelow⟩
                    · exact htop
                    · exact isParentPath_trans htop hbelow
                exact wp_weaken (hrm wd s₁ hJr hresult.inv hbelow) fun _ s₂ hJ₂ => hJ₂
              · rw [if_neg hfail]
                have hok : 0 ≤ r ∨ r = ERR_IGNORE := by
                  by_cases hneg : r < 0
                  · exact Or.inr (not_not.mp fun hne => hfail ⟨hneg, hne⟩)
                  · exact Or.inl (by omega)
                obtain ⟨n₁, hn₁, hsame⟩ := hresult.grows hok (by rw [hheap]; exact hn)
                exact ih dir' s₁ n₁ hJr hresult.inv hn₁ (hsame.wd.trans hwd)
                  (hsame.path.trans hpath)
            unfold entryIsDir
            cases entry.type with
            | other =>
                rw [wp_pure, if_pos (by simp)]
                exact ih dir' _ n hJ₁ h₁ hn hwd hpath
            | DT_DIR =>
                rw [wp_pure, if_neg (by simp)]
                exact henter dir' _ rfl rfl hJ₁ h₁
            | DT_UNKNOWN =>
                dsimp only
                rw [wp_bind, wp_sys]
                have h₂ := h₁.look (.stat (path ++ slash :: entry.name)) trivial
                have hJ₂ := hos (.stat (path ++ slash :: entry.name)) _ trivial rfl hJ₁ h₁
                split
                · rw [wp_pure, if_neg (by simp)]
                  exact henter dir' _ rfl rfl hJ₂ h₂
                · rw [wp_pure, if_pos (by simp)]
                  exact ih dir' _ n hJ₂ h₂ hn hwd hpath

variable (J top first Name) in
/-- The rule for what every step of a walk keeps: {lit}`add_watch` of a directory below the top
whose parent is there too, and {lit}`rm_watch`. -/
theorem wp_walkTree_keeps
    (hos : ∀ c s, c.Looks → c.reads = false → J s → Inv K s → J { s with os := (os c s.os).2 })
    (hname : ∀ dir o entry dir', (os (.readdir dir) o).1 = some (entry, dir') →
      entry.name ≠ cstr "." → entry.name ≠ cstr ".." → Name entry.name)
    (hadd : ∀ path parent s, J s → Inv K s → ParentWithin top first Name s.heap parent path →
      wp fuelOnly (addWatch os path parent) (fun _ s' => J s') s)
    (hrm : ∀ wd s, J s → Inv K s → (∀ b m, s.watches.get wd = some b → s.heap.get b = some m →
      isParentPath top m.path = true) → wp fuelOnly (rmWatch os wd true) (fun _ s' => J s') s)
    (recursive : Bool) (mounts : List Bytes) :
    ∀ (fuel : Nat) (path : Bytes) (parent : Option Nat) (s : State σ), J s → Inv K s →
      ParentWithin top first Name s.heap parent path →
      wp fuelOnly (walkTree os fuel path parent recursive mounts) (fun _ s' => J s') s := by
  intro fuel
  induction fuel with
  | zero => intro path parent s _ _ _; exact rfl
  | succ fuel ih =>
      intro path parent s hJ h hp
      unfold walkTree
      split
      · exact hJ
      · cases hrec : recursive with
        | false =>
            rw [if_pos (by simp)]
            exact hadd path parent s hJ h hp
        | true =>
            rw [if_neg (by simp), wp_bind, wp_sys]
            have h₁ := h.look (.opendir path) trivial
            have hJ₁ := hos (.opendir path) s trivial rfl hJ h
            cases (os (.opendir path) s.os).1 with
            | error e =>
                dsimp only
                split
                · exact hJ₁
                · exact hJ₁
            | ok dir =>
                dsimp only
                rw [wp_bind]
                refine wp_weaken (wp_and (wp_addWatch_inv h₁ hp.above true)
                  (hadd path parent _ hJ₁ h₁ hp)) fun id s₁ hid => ?_
                obtain ⟨hresult, hJ₂⟩ := hid
                by_cases hneg : id < 0
                · rw [if_pos hneg]
                  exact hJ₂
                · rw [if_neg hneg]
                  have hnonneg : 0 ≤ id := by omega
                  obtain ⟨a, n, hn, hwd, hpath⟩ := hresult.found hnonneg
                  subst hwd
                  subst hrec
                  refine wp_walkEntries_keeps hos hname hrm (fun path' parent' s' hJ' hinv hp' => wp_and
                    (wp_walkTree fuel path' parent' true mounts s' hinv hp'.above)
                    (ih path' parent' s' hJ' hinv hp')) hp.below n.wd a fuel dir s₁ n hJ₂ hresult.inv hn
                    rfl hpath

end Keeping

/-! ## What a failed registration leaves behind -/

section Leftover

variable {os : Os σ δ} {capacity : Nat} {K : KernelView os capacity} {s s' : State σ}

/-- Nodes from the address {lit}`N` on have parents at or below {lit}`top`, if they have any. -/
def ParentsWithin (N : Nat) (top : Bytes) (s : State σ) : Prop :=
  ∀ b n p, s.heap.get b = some n → N ≤ b → n.parent = some p →
    ∃ m, s.heap.get p = some m ∧ isParentPath top m.path = true

/-- {lit}`add_watch` below the top keeps parents there. -/
theorem wp_addWatch_parentsWithin {N : Nat} {top path : Bytes} {parent : Option Nat}
    (hJ : ParentsWithin N top s) (h : Inv K s)
    (hp : ParentWithin top none (fun _ => True) s.heap parent path) :
    wp fuelOnly (addWatch os path parent) (fun _ s' => ParentsWithin N top s') s := by
  have hlive := hp.above.live
  apply wp_addWatch os h.wellLinked hlive rfl
  · exact fun _ _ _ => hJ
  · exact fun _ _ _ => hJ
  · exact fun _ _ _ _ _ => hJ
  · exact fun _ _ _ _ _ _ _ => hJ
  · exact fun _ _ _ _ _ _ _ => hJ
  · exact fun _ _ _ _ _ _ _ _ _ => hJ
  · intro wd _ _ b n' p hn' hb hpar
    let s₁ : State σ := { s with os := (os (.inotifyAddWatch path) s.os).2 }
    have hlive₁ : ParentLive s₁.heap parent := hlive
    have hfound : ∃ m, s.heap.get p = some m ∧ isParentPath top m.path = true := by
      rcases addNode_node (s := s₁) hlive₁ hn' with ⟨-, rfl⟩ | ⟨-, n, hn, -, hsame, -⟩
      · rcases hp.entry with ⟨hnone, -⟩ | ⟨q, m, -, hq, hm, hbelow, -⟩
        · rw [hnone] at hpar
          contradiction
        · rw [hq] at hpar
          cases hpar
          exact ⟨m, hm, hbelow⟩
      · exact hJ b n p hn hb (hsame.symm.trans hpar)
    obtain ⟨m, hm, hbelow⟩ := hfound
    obtain ⟨m', hm', -, -, hpath, -⟩ := addNode_survives (s := s₁) wd path hlive₁ hm
    exact ⟨m', hm', by rw [hpath]; exact hbelow⟩

/-- Shrinking keeps parents where they are. -/
theorem ParentsWithin.shrunk {N : Nat} {top : Bytes} (hJ : ParentsWithin N top s)
    (hshrunk : Shrunk K s s') : ParentsWithin N top s' := by
  intro b n' p hn' hb hpar
  obtain ⟨n, hn, hsame⟩ := hshrunk.old hn'
  obtain ⟨m', hm', -⟩ := hshrunk.inv.wellLinked.linked.parent_live hn' hpar
  obtain ⟨m, hm, hsame'⟩ := hshrunk.old hm'
  obtain ⟨m₀, hm₀, hbelow⟩ := hJ b n p hn hb (hsame.parent.symm.trans hpar)
  rw [hm] at hm₀
  cases hm₀
  exact ⟨m', hm', by rw [hsame'.path]; exact hbelow⟩

/-- In a walk from {lit}`top`, which has no parent, new nodes have parents at or below it. -/
theorem wp_walkTree_parentsWithin (h : Inv K s) (top : Bytes) (recursive : Bool)
    (mounts : List Bytes) (fuel : Nat) :
    wp fuelOnly (walkTree os fuel top none recursive mounts)
      (fun _ s' => ParentsWithin s.heap.next top s') s := by
  refine wp_walkTree_keeps (ParentsWithin s.heap.next top) top none (fun _ => True) ?_ ?_ ?_ ?_
    recursive mounts fuel top none s ?_ h ⟨?_, isParentPath_refl top, Or.inl ⟨rfl, rfl⟩⟩
  · exact fun _ _ _ _ hJ _ => hJ
  · exact fun _ _ _ _ _ _ _ => trivial
  · exact fun path parent s' hJ hinv hp => wp_addWatch_parentsWithin hJ hinv hp
  · exact fun wd s' hJ hinv _ => wp_weaken (wp_rmWatch hinv wd) fun _ s'' hs'' => hJ.shrunk hs''.1
  · intro b n p hn hb
    rw [s.heap.fresh b hb] at hn
    contradiction
  · intro p hp
    contradiction

/-- A new node that is no top lies below an old node that is at or below the top of the walk. -/
theorem ParentsWithin.old_above {top : Bytes} (hJ : ParentsWithin s.heap.next top s')
    (hinv : Inv K s') (htops : NoNewTop s s') {P : Bytes → Prop} (hwalked : Walked P s s') :
    ∀ b n', s'.heap.get b = some n' → s.heap.next ≤ b →
      ∃ a m, s.heap.get a = some m ∧ isParentPath top m.path = true ∧
        isParentPath m.path n'.path = true := by
  intro b
  induction b using Nat.strongRecOn with
  | ind b ih =>
      intro n' hn' hb
      obtain ⟨p, hpar⟩ := Option.ne_none_iff_exists'.mp (htops hn' hb)
      obtain ⟨m', hm', hbelow⟩ := hJ b n' p hn' hb hpar
      have habove := hinv.below hm' hn' hpar
      by_cases hp : p < s.heap.next
      · obtain ⟨m, hm, hsame⟩ := hwalked.old hm' hp
        rw [hsame.path] at hbelow habove
        exact ⟨p, m, hm, hbelow, habove⟩
      · -- the parent is new too, and older than its kid
        obtain ⟨a, m, hm, hbelow', habove'⟩ :=
          ih p (hinv.wellLinked.linked.older hn' hpar) m' hm' (Nat.le_of_not_lt hp)
        exact ⟨a, m, hm, hbelow', isParentPath_trans habove' habove⟩

/-- A walk that is not recursive, or whose top is ignored, adds no node unless it succeeds. -/
theorem wp_walkTree_idle (h : Inv K s) {path : Bytes} {parent : Option Nat}
    (hp : ParentAbove s.heap parent path) (recursive : Bool) (mounts : List Bytes) (fuel : Nat) :
    wp fuelOnly (walkTree os fuel path parent recursive mounts)
      (fun r s' => r = ERR_IGNORE ∨ (recursive = false ∧ r < 0) → s'.heap = s.heap) s := by
  have hadd : ∀ o, Inv K { s with os := o } → wp fuelOnly (addWatch os path parent)
      (fun r s' => r < 0 → s'.heap = s.heap) { s with os := o } := by
    intro o ho
    apply wp_addWatch os ho.wellLinked hp.live rfl
    · exact fun _ _ _ _ => rfl
    · exact fun _ _ _ _ => rfl
    · exact fun _ _ _ _ _ _ => rfl
    · exact fun _ _ _ _ _ _ _ _ => rfl
    · exact fun _ _ _ _ _ _ _ _ => rfl
    · exact fun _ _ _ _ _ _ _ _ _ _ => rfl
    · exact fun wd _ _ hneg => absurd hneg (by omega)
  cases fuel with
  | zero => exact rfl
  | succ fuel =>
      unfold walkTree
      split
      · exact fun _ => rfl
      · cases recursive with
        | false =>
            rw [if_pos (by simp)]
            refine wp_weaken (hadd s.os h) fun r s' hr hcase => hr ?_
            rcases hcase with rfl | ⟨-, hneg⟩
            · decide
            · exact hneg
        | true =>
            rw [if_neg (by simp), wp_bind, wp_sys]
            have h₁ := h.look (.opendir path) trivial
            cases (os (.opendir path) s.os).1 with
            | error e =>
                dsimp only
                split
                · exact fun _ => rfl
                · exact fun _ => rfl
            | ok dir =>
                dsimp only
                rw [wp_bind]
                refine wp_weaken (wp_and (wp_addWatch_inv h₁ hp true) (hadd _ h₁)) fun id s₁ hid => ?_
                obtain ⟨hresult, hidle⟩ := hid
                by_cases hneg : id < 0
                · rw [if_pos hneg]
                  exact fun _ => hidle hneg
                · rw [if_neg hneg]
                  have hnonneg : 0 ≤ id := by omega
                  obtain ⟨a, n, hn, hwd, hpath⟩ := hresult.found hnonneg
                  subst hwd
                  refine wp_weaken (wp_walkEntries (fun path' parent' s' hinv hp' =>
                    wp_walkTree fuel path' parent' true mounts s' hinv hp') path n.wd a fuel dir s₁ n
                    hresult.inv hn rfl hpath) fun r s' hr hcase => ?_
                  -- the loop over a directory that is watched does not ignore it
                  exfalso
                  rcases hcase with hignore | ⟨hflat, -⟩
                  · rcases hr.done with ⟨hr, -⟩ | ⟨hcode, -⟩
                    · rw [hr] at hignore
                      exact absurd hignore (by unfold ERR_IGNORE; omega)
                    · rw [hignore] at hcode
                      exact absurd hcode (by decide)
                  · exact absurd hflat (by simp)

/-- What {lit}`watch` of a root leaves behind when it does not return a descriptor: nothing, unless
the root is recursive and the walk fails; then only what lies below older nodes in its reach. -/
def LeavesBehind (root : Bytes) (s : State σ) (r : Int) (s' : State σ) : Prop :=
  r < 0 → s'.heap = s.heap ∨ ((r = ERR_CONTINUE ∨ r = ERR_ABORT) ∧ (splitRoot root).1 = true ∧
    ∀ b n', s'.heap.get b = some n' → s.heap.next ≤ b →
      ∃ a m, s.heap.get a = some m ∧ isParentPath (rootPath root) m.path = true ∧
        isParentPath m.path n'.path = true)

theorem wp_walkTree_leftover (h : Inv K s) {root : Bytes} {recursive : Bool}
    (hrec : recursive = true → (splitRoot root).1 = true) (mounts : List Bytes) (fuel : Nat) :
    wp fuelOnly (walkTree os fuel (rootPath root) none recursive mounts)
      (LeavesBehind root s) s := by
  have habove : ParentAbove s.heap none (rootPath root) := by simp [ParentAbove]
  refine wp_weaken (wp_and (wp_walkTree fuel (rootPath root) none recursive mounts s h habove)
    (wp_and (wp_walkTree_parentsWithin h (rootPath root) recursive mounts fuel)
      (wp_walkTree_idle h habove recursive mounts fuel))) fun r s' hr hneg => ?_
  obtain ⟨hresult, hparents, hidle⟩ := hr
  by_cases hquiet : r = ERR_IGNORE ∨ (recursive = false ∧ r < 0)
  · exact Or.inl (hidle hquiet)
  · obtain ⟨hne, hrecursive⟩ := not_or.mp hquiet
    have htops : NoNewTop s s' := by
      intro b n' hn' hb hpar
      have := (hresult.top hn' hb hpar).2
      omega
    refine Or.inr ⟨?_, hrec ?_, hparents.old_above hresult.inv htops hresult.walked⟩
    · rcases hresult.code with h0 | h1 | h2
      · omega
      · exact absurd h1 hne
      · exact h2
    · cases recursive with
      | true => rfl
      | false => exact absurd ⟨rfl, hneg⟩ hrecursive

/-- The registration of a root that fails leaves only nodes below older nodes in its reach. -/
theorem wp_watch_leftover (h : Inv K s) (fuel : Nat) (root : Bytes) (mounts : List Bytes) :
    wp fuelOnly (watch os fuel root mounts) (LeavesBehind root s) s := by
  unfold watch
  rw [wp_bind, wp_sys]
  have h₁ := h.look (.stat (splitRoot root).2) trivial
  have hsame : ∀ r, LeavesBehind root s r
      { s with os := (os (.stat (splitRoot root).2) s.os).2 } := fun _ _ => Or.inl rfl
  cases (os (.stat (splitRoot root).2) s.os).1 with
  | error e =>
      dsimp only
      split
      · exact hsame _
      · split
        · exact hsame _
        · exact hsame _
  | ok type =>
      cases type with
      | reg => exact wp_walkTree_leftover h₁ (by simp) mounts fuel
      | dir => exact wp_walkTree_leftover h₁ id mounts fuel
      | other => exact hsame _

end Leftover

/-! ## Calm sessions -/

section Calm

variable {os : Os σ δ}

/-- The root is recursive and at or above the path of a node that no registered recursive root
covers. -/
def Exposes (root : Bytes) (s : State σ) : Prop :=
  (splitRoot root).1 = true ∧ ∃ a n, s.heap.get a = some n ∧
    isParentPath (rootPath root) n.path = true ∧ ¬ Covered s.roots n.path

/-- No registration fails that has exposed a node. -/
def CalmRoots (os : Os σ δ) (fuel : Nat) (mounts : List Bytes) : List Bytes → State σ → Prop
  | [], _ => True
  | root :: roots, s =>
      let check := checkMounts (unflatten root) mounts
      if (unflatten root).head? ≠ some slash ∨ check.skip = true then
        CalmRoots os fuel mounts roots s
      else
        ∀ id t, (watch os fuel root check.innerMounts).run s = .ok (id, t) →
          (id = ERR_CONTINUE ∨ id = ERR_ABORT → ¬ Exposes root s) ∧
          CalmRoots os fuel mounts roots (t.record root id)

/-- If the event brings a directory, a registered recursive root is at or above it. -/
def CalmEvent (event : InotifyEvent) (s : State σ) : Prop :=
  anyBit event.mask IN_ISDIR = true → anyBit event.mask (IN_CREATE ||| IN_MOVED_TO) = true →
    ∀ a n, s.watches.get event.wd = some a → s.heap.get a = some n →
      Covered s.roots (eventPath n event)

/-- Every event of a buffer is calm when its turn comes. -/
def CalmEvents (os : Os σ δ) (fuel : Nat) : List InotifyEvent → State σ → Prop
  | [], _ => True
  | event :: events, s =>
      if anyBit event.mask IN_IGNORED = true ∨ anyBit event.mask IN_Q_OVERFLOW = true then
        CalmEvents os fuel events s
      else
        CalmEvent event s ∧ ∀ ok t,
          (processInotifyEvent os (inotifyCallback os) fuel event).run s = .ok (ok, t) →
            CalmEvents os fuel events t

/-- A turn of the main loop all of whose steps are calm. -/
def CalmTurn (os : Os σ δ) (fuel : Nat) : Action → State σ → Prop
  | .updateRoots newRoots, s => ∀ t t' mounts, (unregisterRoots os).run s = .ok ((), t) →
      (unwatchableMounts os).run t = .ok (some mounts, t') →
        CalmRoots os fuel mounts newRoots t'
  | .inotifyInput, s => ∀ events, (os .read s.os).1 = .ok events →
      CalmEvents os fuel events { s with os := (os .read s.os).2 }
  | .missingRootTick, _ => True

/-- The states that a session can be in all of whose turns have been calm. -/
inductive CalmSession (os : Os σ δ) (init : State σ) : State σ → Prop
  | start : CalmSession os init init
  | turn {s s' : State σ} (fuel : Nat) (action : Action) (goesOn : Bool) :
      CalmSession os init s → CalmTurn os fuel action s →
      (perform os fuel action).run s = .ok (goesOn, s') → CalmSession os init s'

end Calm

/-! ## Calm sessions keep the scope -/

section Sessions

variable {os : Os σ δ} {capacity : Nat} {K : KernelView os capacity} {s s' : State σ}

/-- Nodes that only go stay in scope. -/
theorem Scoped.shrunk (h : Scoped s) (hshrunk : Shrunk K s s') : Scoped s' := by
  intro b n' hn'
  obtain ⟨n, hn, hsame⟩ := hshrunk.old hn'
  rw [hshrunk.roots, hsame.path]
  exact h b n hn

/-- Recording a root whose registration was calm. -/
theorem Scoped.record (h : Scoped s) {root : Bytes} {id : Int} (hr : WatchResult K root s id s')
    (hleft : LeavesBehind root s id s')
    (hcalm : id = ERR_CONTINUE ∨ id = ERR_ABORT → ¬ Exposes root s) :
    Scoped (s'.record root id) := by
  have hroots : s'.roots = s.roots := hr.walked.roots
  unfold State.record
  split
  · refine h.of_walked hr.walked ?_ (fun b n' hn' hb => ?_) s'.limitReached s'.stdout
    · rw [hroots]
      exact fun x hx => ⟨x, List.mem_append_left _ hx, rfl⟩
    · exact InReach.inScope ⟨root, id⟩ (hr.walked.born hn' hb) (by simp)
  · rename_i hrecord
    have hneg : id < 0 := by
      have := not_or.mp hrecord
      omega
    refine h.of_walked hr.walked (by rw [hroots]; exact .refl _) (fun b n' hn' hb => ?_)
      s'.limitReached s'.stdout
    rcases hleft hneg with hheap | ⟨hcode, hrec, hbelow⟩
    · rw [hheap, s.heap.fresh b hb] at hn'
      contradiction
    · -- what is left behind lies below a node that was not exposed
      obtain ⟨a, m, hm, htop, hpath⟩ := hbelow b n' hn' hb
      have hcovered : Covered s.roots m.path := by
        by_contra hno
        exact hcalm hcode ⟨hrec, a, m, hm, htop, hno⟩
      rw [hroots]
      exact Or.inr (hcovered.below hpath)

/-- {lit}`register_roots` keeps the scope if its registrations are calm. -/
theorem wp_registerRoots_scoped (fuel : Nat) (mounts : List Bytes) (newRoots : List Bytes) :
    ∀ (unwatchable : List Bytes) (s : State σ), Inv K s → Scoped s →
      CalmRoots os fuel mounts newRoots s →
      wp fuelOnly (registerRoots os fuel mounts newRoots unwatchable)
        (fun _ s' => Scoped s') s := by
  induction newRoots with
  | nil => exact fun _ s _ hscoped _ => hscoped
  | cons root newRoots ih =>
      intro unwatchable s h hscoped hcalm
      unfold CalmRoots at hcalm
      unfold registerRoots
      dsimp only at hcalm ⊢
      by_cases habs : (unflatten root).head? ≠ some slash
      · rw [if_pos (Or.inl habs)] at hcalm
        rw [if_pos habs]
        exact ih _ s h hscoped hcalm
      · rw [if_neg habs]
        by_cases hskip : (checkMounts (unflatten root) mounts).skip = true
        · rw [if_pos (Or.inr hskip)] at hcalm
          rw [if_pos hskip]
          exact ih _ s h hscoped hcalm
        · rw [if_neg (not_or.mpr ⟨habs, hskip⟩)] at hcalm
          rw [if_neg hskip, wp_bind]
          refine wp_weaken (wp_with_run (wp_and (wp_watch h)
            (wp_watch_leftover h fuel root _))) fun id s₁ hid => ?_
          obtain ⟨⟨hr, hleft⟩, hrun⟩ := hid
          obtain ⟨hquiet, hrest⟩ := hcalm id s₁ hrun
          have hscoped₁ := hscoped.record hr hleft hquiet
          unfold State.record at hrest hscoped₁
          by_cases hrecord : 0 ≤ id ∨ id = ERR_MISSING
          · rw [if_pos hrecord] at hrest hscoped₁ ⊢
            rw [wp_bind, wp_modify]
            exact ih _ _ (hr.inv.frame _ _ _) hscoped₁ hrest
          · rw [if_neg hrecord] at hrest hscoped₁ ⊢
            split
            · exact hscoped₁
            · split
              · exact ih _ _ hr.inv hscoped₁ hrest
              · exact ih _ _ hr.inv hscoped₁ hrest

/-- {lit}`update_roots` keeps the scope in a calm turn. -/
theorem wp_updateRoots_scoped (h : Good K s) {fuel : Nat} {newRoots : List Bytes}
    (hcalm : CalmTurn os fuel (.updateRoots newRoots) s) :
    wp fuelOnly (updateRoots os fuel newRoots) (fun _ s' => Scoped s') s := by
  unfold updateRoots
  rw [wp_bind]
  refine wp_weaken (wp_with_run (wp_unregisterRoots h)) fun _ s₁ hs₁ => ?_
  obtain ⟨⟨hgood, hroots⟩, hrun⟩ := hs₁
  have hempty : Scoped s₁ := by
    intro a n hn
    rw [hgood.no_nodes hroots a] at hn
    contradiction
  split
  · exact hempty
  · split
    · exact hempty
    · rw [wp_bind]
      have hmounts : wp fuelOnly (unwatchableMounts os) (fun _ s₂ => Inv K s₂ ∧ Scoped s₂) s₁ := by
        unfold unwatchableMounts
        rw [wp_bind, wp_sys]
        have h₂ := hgood.inv.look .getmntent trivial
        cases (os .getmntent s₁.os).1 with
        | none => exact ⟨h₂, hempty⟩
        | some entries => exact ⟨h₂, hempty⟩
      refine wp_weaken (wp_with_run hmounts) fun answer s₂ hs₂ => ?_
      obtain ⟨⟨h₂, hscoped⟩, hrun₂⟩ := hs₂
      cases answer with
      | none => exact hscoped
      | some mounts =>
          dsimp only
          rw [wp_bind]
          refine wp_weaken (wp_registerRoots_scoped fuel mounts newRoots [] s₂ h₂ hscoped
            (hcalm s₁ s₂ mounts hrun hrun₂)) fun r s₃ h₃ => ?_
          split
          · exact h₃
          · rw [wp_bind, wp_output, wp_bind]
            refine wp_weaken (wp_forM (fun _ s' => Scoped s') ?_ _ _ h₃) ?_
            · exact fun _ _ _ h₄ => h₄
            · exact fun _ _ h₄ => h₄

/-- {lit}`check_root_removal` keeps the scope. -/
theorem wp_checkRootRemovalAt_scoped (h : Inv K s) (hscoped : Scoped s) (path : Bytes) (i : Nat) :
    wp fuelOnly (checkRootRemovalAt os path i) (fun _ s' => Scoped s') s := by
  unfold checkRootRemovalAt
  rw [wp_bind, wp_get]
  cases hroot : s.roots[i]? with
  | none => exact hscoped
  | some root =>
      dsimp only
      split
      · rw [wp_bind]
        refine wp_weaken (wp_unwatch h root.id) fun _ s' hs' => ?_
        have hroots := hs'.1.roots
        intro a n hn
        have hold : InScope s'.roots n.path := hscoped.shrunk hs'.1 a n hn
        refine hold.mono (.set (-1) ?_)
        rw [hroots, hroot]
      · exact hscoped

/-- {lit}`inotify_callback` keeps the scope. -/
theorem wp_inotifyCallback_scoped (h : Good K s) (hscoped : Scoped s) (path : Bytes)
    (mask : UInt32) : wp fuelOnly (inotifyCallback os path mask) (fun _ s' => Scoped s') s := by
  unfold inotifyCallback
  rw [wp_bind]
  apply wp_reportMask
  intro out
  have h₁ : Good K { s with stdout := out } := h.frame s.limitReached out
  split
  · unfold checkRootRemoval
    rw [wp_bind, wp_get]
    refine wp_weaken (wp_forM (fun _ s' => Good K s' ∧ Scoped s') ?_ _ _ ⟨h₁, hscoped⟩)
      fun _ s' hs' => hs'.2
    exact fun i _ s' hs' => wp_and (wp_checkRootRemovalAt hs'.1)
      (wp_checkRootRemovalAt_scoped hs'.1.inv hs'.2 path i)
  · split
    · exact hscoped
    · exact hscoped

/-- A directory event that brings no directory only takes nodes away. -/
theorem wp_processDirEvent_shrunk (h : Inv K s) {a : Nat} {n : WatchNode}
    (hn : s.heap.get a = some n) {mask : UInt32}
    (hadd : anyBit mask (IN_CREATE ||| IN_MOVED_TO) = false) (fuel : Nat) (path : Bytes) :
    wp fuelOnly (processDirEvent os fuel a path mask) (fun _ s' => Shrunk K s s') s := by
  unfold processDirEvent
  dsimp only
  have hzero : ¬ ((0 : Int) < 0 ∧ (0 : Int) ≠ ERR_IGNORE ∧ (0 : Int) ≠ ERR_CONTINUE) := by omega
  rw [hadd, if_neg (by simp), wp_bind, wp_pure, if_neg hzero]
  split
  · rw [wp_bind, wp_deref hn, wp_bind]
    exact wp_weaken (wp_dropKid h hn path _) fun _ s' hs' => hs'
  · exact Shrunk.refl h

/-- A calm event keeps the scope. -/
theorem wp_processInotifyEvent_scoped (h : Good K s) (hscoped : Scoped s) {fuel : Nat}
    {event : InotifyEvent} (hsingle : SingleType event.mask) (hcalm : CalmEvent event s) :
    wp fuelOnly (processInotifyEvent os (inotifyCallback os) fuel event)
      (fun _ s' => Scoped s') s := by
  unfold processInotifyEvent
  rw [wp_bind, wp_tableGet]
  cases hget : s.watches.get event.wd with
  | none => exact hscoped
  | some a =>
      obtain ⟨n, hn⟩ := h.inv.wellLinked.slotted.live_of_get hget
      dsimp only
      rw [wp_bind, wp_deref hn, wp_bind]
      refine wp_weaken (wp_and (wp_inotifyCallback h)
        (wp_inotifyCallback_scoped h hscoped (eventPath n event) event.mask)) fun _ s₁ hs₁ => ?_
      obtain ⟨⟨h₁, hquiet⟩, hscoped₁⟩ := hs₁
      split
      · rename_i hdir
        cases hself : anyBit event.mask (IN_DELETE_SELF ||| IN_MOVE_SELF) with
        | true =>
            obtain ⟨hadd, hdel⟩ := hsingle.self_quiet hself
            unfold processDirEvent
            dsimp only
            rw [hadd, hdel]
            exact hscoped₁
        | false =>
            obtain ⟨out, rfl⟩ := hquiet hself
            cases hadd : anyBit event.mask (IN_CREATE ||| IN_MOVED_TO) with
            | false =>
                exact wp_weaken (wp_processDirEvent_shrunk h₁.inv hn hadd fuel _) fun _ s' hs' =>
                  hscoped₁.shrunk hs'
            | true =>
                refine wp_weaken (wp_processDirEvent h₁.inv hn (isParentPath_eventPath n event)
                  hsingle.not_contradictory) fun ok s' hr => ?_
                have hroots : s'.roots = s.roots := hr.walked.roots
                refine hscoped₁.of_walked hr.walked (by rw [hroots]; exact .refl _)
                  (fun b n' hn' hb => ?_) s'.limitReached s'.stdout
                -- the walk stays at or below the path of the event
                have hbelow : isParentPath (eventPath n event) n'.path = true := by
                  rcases hr.walked.born hn' hb with hpath | ⟨-, hpath⟩
                  · rw [hpath]
                    exact isParentPath_refl _
                  · exact hpath
                rw [hroots]
                exact Or.inr ((hcalm hdir hadd a n hget hn).below hbelow)
      · exact hscoped₁

/-- A buffer of calm events keeps the scope. -/
theorem wp_processEvents_scoped {fuel : Nat} (events : List InotifyEvent) :
    ∀ s : State σ, Good K s → Scoped s → (∀ event ∈ events, SingleType event.mask) →
      CalmEvents os fuel events s →
      wp fuelOnly (processEvents os (inotifyCallback os) fuel events) (fun _ s' => Scoped s') s := by
  induction events with
  | nil => exact fun s _ hscoped _ _ => hscoped
  | cons event events ih =>
      intro s h hscoped hsingle hcalm
      have hrest : ∀ e ∈ events, SingleType e.mask := fun e he =>
        hsingle e (List.mem_cons_of_mem _ he)
      unfold CalmEvents at hcalm
      unfold processEvents
      split
      · rename_i hignored
        rw [if_pos (Or.inl hignored)] at hcalm
        exact ih s h hscoped hrest hcalm
      · rename_i hignored
        split
        · rename_i hoverflow
          rw [if_pos (Or.inr hoverflow)] at hcalm
          exact ih s h hscoped hrest hcalm
        · rename_i hoverflow
          rw [if_neg (not_or.mpr ⟨hignored, hoverflow⟩)] at hcalm
          rw [wp_bind]
          refine wp_weaken (wp_with_run (wp_and (wp_processInotifyEvent h (hsingle event (by simp)))
            (wp_processInotifyEvent_scoped h hscoped (hsingle event (by simp)) hcalm.1)))
            fun ok s₁ hs₁ => ?_
          obtain ⟨⟨⟨h₁, -⟩, hscoped₁⟩, hrun⟩ := hs₁
          cases ok with
          | true => exact ih s₁ h₁ hscoped₁ hrest (hcalm.2 true s₁ hrun)
          | false => exact hscoped₁

/-- One round of {lit}`check_missing_roots` keeps the scope. -/
theorem wp_checkMissingRootAt_scoped (h : Inv K s) (hscoped : Scoped s) (fuel i : Nat) :
    wp fuelOnly (checkMissingRootAt os fuel i) (fun _ s' => Scoped s') s := by
  unfold checkMissingRootAt
  rw [wp_bind, wp_get]
  cases hroot : s.roots[i]? with
  | none => exact hscoped
  | some root =>
      dsimp only
      split
      · rw [wp_bind, wp_sys]
        have h₁ := h.look (.stat (unflatten root.path)) trivial
        cases (os (.stat (unflatten root.path)) s.os).1 with
        | error e => exact hscoped
        | ok type =>
            dsimp only
            rw [wp_bind]
            refine wp_weaken (wp_watch h₁) fun id s' hr => ?_
            have hroots : s'.roots = s.roots := hr.walked.roots
            have hmem : { root with id := id } ∈ s'.roots.set i { root with id := id } := by
              have hi : i < s'.roots.length := by
                rw [hroots]
                exact (List.getElem?_eq_some_iff.mp hroot).1
              exact List.mem_iff_getElem?.mpr ⟨i, List.getElem?_set_self hi⟩
            have hsub : SubRoots s.roots (s'.roots.set i { root with id := id }) := by
              rw [hroots]
              exact .set id hroot
            exact hscoped.of_walked hr.walked.of_call hsub
              (fun b n' hn' hb => InReach.inScope { root with id := id } (hr.walked.born hn' hb) hmem)
              _ _
      · exact hscoped

/-- A calm turn of the main loop keeps the scope. -/
theorem wp_perform_scoped (h : Good K s) (hscoped : Scoped s) (hsingle : SingleEvents os)
    {fuel : Nat} {action : Action} (hcalm : CalmTurn os fuel action s) :
    wp fuelOnly (perform os fuel action) (fun _ s' => Scoped s') s := by
  cases action with
  | updateRoots newRoots => exact wp_updateRoots_scoped h hcalm
  | inotifyInput =>
      unfold perform processInotifyInput
      dsimp only
      rw [wp_bind, wp_sys]
      have h₁ := h.look .read trivial
      cases hans : (os .read s.os).1 with
      | error e => exact hscoped
      | ok events =>
          exact wp_processEvents_scoped events _ h₁ hscoped (hsingle s.os events hans)
            (hcalm events hans)
  | missingRootTick =>
      unfold perform checkMissingRoots
      dsimp only
      rw [wp_bind, wp_bind, wp_get]
      refine wp_weaken (wp_forM (fun _ s' => Good K s' ∧ Scoped s') ?_ _ _ ⟨h, hscoped⟩)
        fun _ s' hs' => hs'.2
      exact fun i _ s' hs' => wp_and (wp_checkMissingRootAt hs'.1)
        (wp_checkMissingRootAt_scoped hs'.1.inv hs'.2 fuel i)

/-- Calm sessions are good, and what they watch is in scope. -/
theorem CalmSession.scoped {o : σ} {watchCount : Nat} (hpos : 0 < watchCount)
    (hsingle : SingleEvents os) (hreach : CalmSession os (FsNotifier.start o watchCount hpos) s) :
    Good (looseView os watchCount) s ∧ Scoped s := by
  induction hreach with
  | start =>
      refine ⟨good_start hpos fun _ hw => hw, ?_⟩
      intro a n hn
      contradiction
  | turn fuel action goesOn _ hcalm hrun ih =>
      have hturn := run_of_wp (wp_and (wp_perform ih.1 hsingle)
        (wp_perform_scoped ih.1 ih.2 hsingle hcalm)) hrun
      exact hturn

/-- In every state of a session whose turns have been calm, every node of the watch table has
the path of a registered root or lies below a registered recursive root.  If all registered
roots are flat, nothing but the roots themselves is watched. -/
theorem watch_scope_sound (hsingle : SingleEvents os) {o : σ} {watchCount : Nat}
    (hpos : 0 < watchCount) (hreach : CalmSession os (start o watchCount hpos) s) {key : Int}
    {a : Nat} (hkey : s.watches.get key = some a) :
    ∃ n, s.heap.get a = some n ∧ InScope s.roots n.path ∧
      ((∀ root ∈ s.roots, (splitRoot root.path).1 = false) →
        ∃ root ∈ s.roots, n.path = rootPath root.path) := by
  obtain ⟨hgood, hscoped⟩ := hreach.scoped hpos hsingle
  obtain ⟨n, hn⟩ := hgood.inv.wellLinked.slotted.live_of_get hkey
  refine ⟨n, hn, hscoped a n hn, fun hflat => ?_⟩
  rcases hscoped a n hn with hroot | ⟨root, hroot, hrec, -⟩
  · exact hroot
  · rw [hflat root hroot] at hrec
    contradiction

end Sessions

/-! ## Small sessions -/

/-- Nothing is watched when the first root is registered, so nothing is exposed. -/
theorem calmTurn_smallTree : CalmTurn (worldOs createInTree) 9 (.updateRoots [cstr "/r"])
    (start smallTree 8 (by decide)) := by
  intro t t' mounts hdropped hmounts
  obtain rfl : start smallTree 8 (by decide) = t := by
    have hnone : (unregisterRoots (worldOs createInTree)).run (start smallTree 8 (by decide)) =
      .ok ((), start smallTree 8 (by decide)) := rfl
    rw [hnone] at hdropped
    cases hdropped
    rfl
  have hlooked : (unwatchableMounts (worldOs createInTree)).run (start smallTree 8 (by decide)) =
      .ok (some [], { start smallTree 8 (by decide) with
        os := (worldOs createInTree .getmntent smallTree).2 }) := rfl
  rw [hlooked] at hmounts
  cases hmounts
  unfold CalmRoots
  dsimp only
  split
  · trivial
  · refine fun id t _ => ⟨fun _ hexposes => ?_, trivial⟩
    obtain ⟨-, a, n, hn, -⟩ := hexposes
    cases hn

/-- The event of a new directory below a recursive root is calm, so the new node is in scope. -/
theorem watch_scope_sound_tree :
    ∃ s n, CalmSession (worldOs createInTree) (start smallTree 8 (by decide)) s ∧
      s.watches.get 4 = some 3 ∧ s.heap.get 3 = some n ∧ n.path = cstr "/r/c" ∧
      InScope s.roots n.path := by
  have hcheck : returned ((perform (worldOs createInTree) 9 (.updateRoots [cstr "/r"])).run
      (start smallTree 8 (by decide))) true (fun s =>
        decide (s.roots = [⟨cstr "/r", 1⟩] ∧
          (s.watches.get 1).bind (fun a => (s.heap.get a).map (·.path)) = some (cstr "/r") ∧
          (worldOs createInTree .read s.os).1.toOption =
            some [⟨1, Happening.created.mask, some (cstr "c")⟩]) &&
        returned ((perform (worldOs createInTree) 9 .inotifyInput).run s) true (fun s' =>
          decide (s'.watches.get 4 = some 3 ∧
            (s'.heap.get 3).map (·.path) = some (cstr "/r/c")))) = true := by decide +kernel
  obtain ⟨s, hrun, htest⟩ := exists_of_returned hcheck
  obtain ⟨hbefore, hinput⟩ := Bool.and_eq_true_iff.mp htest
  obtain ⟨hroots, hparent, hread⟩ := of_decide_eq_true hbefore
  obtain ⟨s', hrun', hafter⟩ := exists_of_returned hinput
  obtain ⟨hslot, hpath⟩ := of_decide_eq_true hafter
  have hsecond : CalmTurn (worldOs createInTree) 9 .inotifyInput s := by
    intro events hevents
    rw [hevents] at hread
    obtain rfl := Option.some.inj hread
    unfold CalmEvents
    rw [if_neg (by decide)]
    refine ⟨fun _ _ a n ha hn => ?_, fun _ _ _ => trivial⟩
    change s.watches.get 1 = some a at ha
    change s.heap.get a = some n at hn
    rw [ha, Option.bind_some, hn] at hparent
    refine ⟨⟨cstr "/r", 1⟩, ?_, by decide, ?_⟩
    · exact hroots ▸ List.mem_singleton_self _
    · have hname : n.path = cstr "/r" := Option.some.inj hparent
      unfold eventPath
      rw [hname]
      decide
  have hsession : CalmSession (worldOs createInTree) (start smallTree 8 (by decide)) s' :=
    .turn 9 _ true (.turn 9 _ true .start calmTurn_smallTree hrun) hsecond hrun'
  obtain ⟨n, hn, hscope, -⟩ := watch_scope_sound (worldOs_singleEvents _) (by decide) hsession hslot
  rw [hn] at hpath
  exact ⟨s', n, hsession, hslot, hn, Option.some.inj hpath, hscope⟩

/-! ## Flat roots -/

/-- Other processes create {lit}`/r/d` before the first buffer of events is read. -/
def createInFlatRoot : Nat → Turn :=
  fun t => if t = 3 then { Turn.quiet with ops := [.mkdir [cstr "r"] (cstr "d")] } else Turn.quiet

/-- With {lit}`/r` as the only root, and a flat one, a directory that is created in it is watched. -/
theorem flat_root_leaks :
    ∃ s, Reachable (worldOs createInFlatRoot) (start oneDirectory 8 (by decide)) s ∧
      s.roots = [⟨cstr "|/r", 1⟩] ∧
      ∃ a n, s.watches.get 2 = some a ∧ s.heap.get a = some n ∧ n.path = cstr "/r/d" ∧
        ¬ InScope s.roots n.path := by
  have hcheck : returned ((perform (worldOs createInFlatRoot) 5 (.updateRoots [cstr "|/r"])).run
      (start oneDirectory 8 (by decide))) true
      (fun s => returned ((perform (worldOs createInFlatRoot) 5 .inotifyInput).run s) true
        (fun s' => decide (s'.roots = [⟨cstr "|/r", 1⟩] ∧ s'.watches.get 2 = some 1 ∧
          (s'.heap.get 1).map (·.path) = some (cstr "/r/d")))) = true := by decide +kernel
  obtain ⟨s, hrun, hinput⟩ := exists_of_returned hcheck
  obtain ⟨s', hrun', htest⟩ := exists_of_returned hinput
  obtain ⟨hroots, hslot, hnode⟩ := of_decide_eq_true htest
  obtain ⟨n, hn, hpath⟩ := Option.map_eq_some_iff.mp hnode
  refine ⟨s', .turn _ _ _ (.turn _ _ _ .start hrun) hrun', hroots, 1, n, hslot, hn, hpath, ?_⟩
  rw [hroots, hpath]
  rintro (⟨root, hroot, heq⟩ | ⟨root, hroot, hrec, -⟩)
  · rw [List.mem_singleton.mp hroot] at heq
    exact absurd heq (by decide)
  · rw [List.mem_singleton.mp hroot] at hrec
    exact absurd hrec (by decide)

end FsNotifier
end IdeMultiarch
