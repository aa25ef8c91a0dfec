import IdeMultiarch.FsNotifier.Consistency
import IdeMultiarch.FsNotifier.Disk

/-!
# fsnotifier - what a failed registration takes with it

When a walk cannot watch some directory, {lit}`walk_tree` removes the watch of every directory
it is in, whether this walk has added it or it was there before.  So a registration that
fails leaves the earlier watches intact exactly if none of the directories in which it fails
had a watch.

Main results:

- Theorem {lit}`wp_walkTree_outcome`: what a walk that fails has removed.
- Theorem {lit}`failed_watch_intact_iff`: when a failed registration is harmless.
- Theorem {lit}`flat_root_lost`: a registered root whose watch is lost.
-/

namespace IdeMultiarch
namespace FsNotifier

open Library

/-! ## Where a walk fails -/

/-- The directories that a walk from {lit}`path` is in when the first directory refuses to be
opened or watched, the outermost first; {lit}`none` if no directory refuses. -/
def Disk.refusal (disk : Disk) (mounts : List Bytes) : Nat → Bytes → Option (List Bytes)
  | 0, _ => none
  | fuel + 1, path =>
      if mounts.any fun mount => mount.isPrefixOf path then
        none
      else
        match disk.opendir path with
        | .error e => if e = .EACCES ∨ e = .ENOENT ∨ e = .ENOTDIR then none else some []
        | .ok entries =>
            match disk.addWatch path with
            | .error e => if e = .ENOSPC then some [] else none
            | .ok _ =>
                (entries.findSome? fun entry =>
                  if disk.descends path entry then
                    disk.refusal mounts fuel (path ++ slash :: entry.name)
                  else
                    none).map (path :: ·)

/-- The directories in which the registration of a root fails, if it fails in one. -/
def Disk.rootRefusal (disk : Disk) (mounts : List Bytes) (fuel : Nat) (root : Bytes) :
    List Bytes :=
  match disk.stat (splitRoot root).2 with
  | .ok .dir =>
      if (splitRoot root).1 then (disk.refusal mounts fuel (rootPath root)).getD [] else []
  | _ => []

/-- The kernel's descriptor for {lit}`path` has a node. -/
def HasNode (disk : Disk) (s : State (List Nat)) (path : Bytes) : Prop :=
  ∃ wd a, disk.addWatch path = .ok wd ∧ s.watches.get (wd : Int) = some a

/-! ## Keeping and losing nodes -/

/-- The nodes below the address {lit}`N` are as they were, apart from kids that came later, and
the kernel still watches their descriptors. -/
structure Intact (N : Nat) (s s' : State (List Nat)) : Prop where
  nodes : ∀ {b n}, b < N → s.heap.get b = some n → ∃ n', s'.heap.get b = some n' ∧
    SameNode n n' ∧ ∀ k < N, some k ∈ n.kids → some k ∈ n'.kids
  watched : ∀ {b n}, b < N → s.heap.get b = some n → n.wd ∈ s.os → n.wd ∈ s'.os

/-- A node below the address {lit}`N` is gone. -/
def Lost (N : Nat) (s s' : State (List Nat)) : Prop :=
  ∃ b < N, (∃ n, s.heap.get b = some n) ∧ s'.heap.get b = none

/-- The kernel's descriptor for {lit}`path` has a node below the address {lit}`N`. -/
def Had (disk : Disk) (N : Nat) (s : State (List Nat)) (path : Bytes) : Prop :=
  ∃ wd a, disk.addWatch path = .ok wd ∧ s.watches.get (wd : Int) = some a ∧ a < N

section Nodes

variable {disk : Disk} {capacity N : Nat} {s s₁ s' s'' : State (List Nat)}
  {K : KernelView (diskOs disk) capacity}

theorem Intact.refl (N : Nat) (s : State (List Nat)) : Intact N s s :=
  ⟨fun _ hn => ⟨_, hn, SameNode.refl _, fun _ _ hk => hk⟩, fun _ _ hw => hw⟩

theorem Intact.trans (h : Intact N s s') (h' : Intact N s' s'') : Intact N s s'' := by
  constructor
  · intro b n hb hn
    obtain ⟨n', hn', hsame, hkids⟩ := h.nodes hb hn
    obtain ⟨n'', hn'', hsame', hkids'⟩ := h'.nodes hb hn'
    exact ⟨n'', hn'', hsame.trans hsame', fun k hk hmem => hkids' k hk (hkids k hk hmem)⟩
  · intro b n hb hn hw
    obtain ⟨n', hn', hsame, -⟩ := h.nodes hb hn
    have hw' := h'.watched hb hn'
    rw [hsame.wd] at hw'
    exact hw' (h.watched hb hn hw)

/-- A lost node is not intact. -/
theorem Lost.not_intact (h : Lost N s s') : ¬ Intact N s s' := by
  intro hintact
  obtain ⟨b, hb, ⟨n, hn⟩, hdead⟩ := h
  obtain ⟨n', hn', -⟩ := hintact.nodes hb hn
  rw [hdead] at hn'
  contradiction

/-- A node lost in the second part of a walk is lost in the whole of it. -/
theorem Lost.of_walked {P : Bytes → Prop} (hwalked : Walked P s s₁) (hN : N ≤ s.heap.next)
    (h : Lost N s₁ s') : Lost N s s' := by
  obtain ⟨b, hb, ⟨n₁, hn₁⟩, hdead⟩ := h
  obtain ⟨n, hn, -⟩ := hwalked.old hn₁ (Nat.lt_of_lt_of_le hb hN)
  exact ⟨b, hb, ⟨n, hn⟩, hdead⟩

/-- What is lost stays lost when more is removed. -/
theorem Lost.shrunk (h : Lost N s s₁) (hshrunk : Shrunk K s₁ s') : Lost N s s' := by
  obtain ⟨b, hb, hlive, hdead⟩ := h
  refine ⟨b, hb, hlive, ?_⟩
  cases hcase : s'.heap.get b with
  | none => rfl
  | some n' =>
      obtain ⟨n, hn, -⟩ := hshrunk.old hcase
      rw [hdead] at hn
      contradiction

/-- Descriptors find the same old nodes as long as these are intact. -/
theorem had_iff {P : Bytes → Prop} (h : Inv K s) (h₁ : Inv K s₁) (hwalked : Walked P s s₁)
    (hintact : Intact N s s₁) (hN : N ≤ s.heap.next) (path : Bytes) :
    Had disk N s₁ path ↔ Had disk N s path := by
  constructor
  · rintro ⟨wd, a, hans, hget, ha⟩
    refine ⟨wd, a, hans, ?_, ha⟩
    rw [Table.get_natCast] at hget ⊢
    obtain ⟨n₁, hn₁, hslot⟩ := h₁.wellLinked.slotted.of_slot hget
    obtain ⟨n, hn, hsame⟩ := hwalked.old hn₁ (Nat.lt_of_lt_of_le ha hN)
    rw [hwalked.capacity, hsame.wd] at hslot
    rw [← hslot]
    exact h.wellLinked.slotted.of_node hn
  · rintro ⟨wd, a, hans, hget, ha⟩
    refine ⟨wd, a, hans, ?_, ha⟩
    rw [Table.get_natCast] at hget ⊢
    obtain ⟨n, hn, hslot⟩ := h.wellLinked.slotted.of_slot hget
    obtain ⟨n₁, hn₁, hsame, -⟩ := hintact.nodes ha hn
    rw [hwalked.capacity, ← hslot, ← hwalked.capacity, ← hsame.wd]
    exact h₁.wellLinked.slotted.of_node hn₁

/-- The kernel goes on watching what is not removed. -/
theorem mem_rmCalls_disk {wds : List Nat} {wd : Nat} {o : List Nat} (hwd : wd ∉ wds)
    (ho : wd ∈ o) : wd ∈ rmCalls (diskOs disk) wds o := by
  induction wds generalizing o with
  | nil => exact ho
  | cons x xs ih =>
      rw [List.mem_cons, not_or] at hwd
      exact ih hwd.2 (List.mem_filter.mpr ⟨ho, decide_eq_true hwd.1⟩)

/-- {lit}`rm_watch` of a node that is not below the address leaves the others intact. -/
theorem wp_rmWatch_intact (h : Inv K s) (wd : Nat) :
    wp fuelOnly (rmWatch (diskOs disk) wd true) (fun _ s' => ∀ N,
      (∀ a, s.watches.get (wd : Int) = some a → N ≤ a) → Intact N s s') s := by
  cases hget : s.watches.get (wd : Int) with
  | none => exact wp_of_run (rmWatch_run_none _ true hget) fun N _ => Intact.refl N s
  | some a =>
      obtain ⟨n, hn⟩ := h.wellLinked.slotted.live_of_get hget
      obtain ⟨L, hL⟩ := h.wellLinked.exists_subtree hn
      have hrun := rmWatch_run_some (diskOs disk) h.wellLinked true hget hL
      rw [if_pos rfl] at hrun
      refine wp_of_run hrun fun N hN => ?_
      have hNa : N ≤ a := hN a rfl
      have hout : ∀ {b}, b < N → b ∉ a :: L := by
        intro b hb hmem
        rcases List.mem_cons.mp hmem with rfl | hmem
        · omega
        · have := hL.above b hmem
          omega
      constructor
      · intro b m hb hm
        obtain ⟨m', hm', hwd, hpar, hpath, hkids⟩ :=
          prune_survives (diskOs disk) a n.parent hm (hout hb)
        refine ⟨m', hm', ⟨hwd, hpar, hpath⟩, fun k hk hmem => ?_⟩
        rw [hkids]
        split
        · exact (mem_replace_none (h.wellLinked.linked.kid_once hm)).mpr ⟨by omega, hmem⟩
        · exact hmem
      · intro b m hb hm hw
        exact mem_rmCalls_disk (h.wellLinked.slotted.wd_not_mem hm (hout hb)) hw

end Nodes

/-! ## Walks -/

/-- What a walk whose directories refuse as in {lit}`chain` has done when it returns {lit}`r`. -/
structure WalkOutcome (disk : Disk) (N : Nat) (chain : Option (List Bytes))
    (s : State (List Nat)) (r : Int) (s' : State (List Nat)) : Prop where
  kept : 0 ≤ r ∨ r = ERR_IGNORE → chain = none ∧ Intact N s s'
  failed : r = ERR_CONTINUE → ∃ l, chain = some l ∧
    ((∀ p ∈ l, ¬ Had disk N s p) → Intact N s s') ∧ ((∃ p ∈ l, Had disk N s p) → Lost N s s')

/-- The same for the loop over a directory whose node is at {lit}`a`. -/
structure EntriesOutcome (disk : Disk) (N : Nat) (chain : Option (List Bytes)) (a : Nat)
    (s : State (List Nat)) (r : Int) (s' : State (List Nat)) : Prop where
  kept : 0 ≤ r → chain = none ∧ Intact N s s'
  failed : r = ERR_CONTINUE → ∃ l, chain = some l ∧
    (N ≤ a → (∀ p ∈ l, ¬ Had disk N s p) → Intact N s s') ∧
    (a < N ∨ (∃ p ∈ l, Had disk N s p) → Lost N s s')

section Walks

variable {disk : Disk} {capacity N : Nat} {K : KernelView (diskOs disk) capacity}

/-- {lit}`add_watch` leaves the earlier nodes intact. -/
theorem wp_addWatch_outcome {s : State (List Nat)} (h : Inv K s)
    {path : Bytes} {parent : Option Nat} (hp : ParentLive s.heap parent)
    (hN : N ≤ s.heap.next) :
    wp fuelOnly (addWatch (diskOs disk) path parent) (fun r s' => r ≠ ERR_ABORT →
      Intact N s s' ∧
      (r = ERR_IGNORE → ∃ e, disk.addWatch path = .error e ∧ e ≠ .ENOSPC) ∧
      (r = ERR_CONTINUE → disk.addWatch path = .error .ENOSPC) ∧
      (0 ≤ r → ∃ (wd a : Nat) (n : WatchNode), r = wd ∧ disk.addWatch path = .ok wd ∧
        s'.heap.get a = some n ∧ n.wd = wd ∧ n.path = path ∧ (a < N ↔ Had disk N s path))) s := by
  apply wp_addWatch_disk h.wellLinked hp
  · intro e hans he _
    refine ⟨Intact.refl N s, fun _ => ⟨e, hans, ?_⟩, fun hr => absurd hr (by decide),
      fun hr => absurd hr (by decide)⟩
    rcases he with rfl | rfl <;> decide
  · intro hans limit out _
    exact ⟨⟨(Intact.refl N s).nodes, (Intact.refl N s).watched⟩,
      fun hr => absurd hr (by decide), fun _ => hans, fun hr => absurd hr (by decide)⟩
  · exact fun e _ _ _ _ hr => absurd rfl hr
  · exact fun o wd a n _ _ _ _ hr => absurd rfl hr
  · intro wd a n hans hn hwd hpath _
    refine ⟨⟨(Intact.refl N s).nodes, fun _ _ hw => List.mem_cons_of_mem _ hw⟩, ?_, ?_, ?_⟩
    · exact fun hr => absurd hr (by unfold ERR_IGNORE; omega)
    · exact fun hr => absurd hr (by unfold ERR_CONTINUE; omega)
    · refine fun _ => ⟨wd, a, n, rfl, hans, hn, hwd, hpath, ?_⟩
      have hget : s.watches.get (wd : Int) = some a := by
        rw [← hwd]
        exact h.wellLinked.slotted.get_of_node hn
      constructor
      · exact fun ha => ⟨wd, a, hans, hget, ha⟩
      · rintro ⟨wd', a', hans', hget', ha'⟩
        rw [hans] at hans'
        cases hans'
        rw [hget] at hget'
        cases hget'
        exact ha'
  · intro wd hans hfree _
    let s₁ : State (List Nat) := { s with os := wd :: s.os }
    have hp₁ : ParentLive s₁.heap parent := hp
    refine ⟨⟨?_, fun _ _ hw => List.mem_cons_of_mem _ hw⟩, ?_, ?_, ?_⟩
    · intro b n hb hn
      obtain ⟨n', hn', hwd, hpar, hpath, hkids⟩ := addNode_survives (s := s₁) wd path hp₁ hn
      refine ⟨n', hn', ⟨hwd, hpar, hpath⟩, fun k _ hmem => ?_⟩
      rw [hkids]
      split
      · exact List.mem_append_left _ hmem
      · exact hmem
    · exact fun hr => absurd hr (by unfold ERR_IGNORE; omega)
    · exact fun hr => absurd hr (by unfold ERR_CONTINUE; omega)
    · refine fun _ => ⟨wd, _, _, rfl, hans, addNode_new (s := s₁) hp₁, rfl, rfl, ?_⟩
      constructor
      · intro ha
        exact absurd ha (Nat.not_lt.mpr hN)
      · rintro ⟨wd', a', hans', hget', -⟩
        rw [hans] at hans'
        cases hans'
        rw [hfree] at hget'
        contradiction

/-- The loop of {lit}`walk_tree`, given what the recursive call does. -/
theorem wp_walkEntries_outcome {walk : Bytes → Option Nat → Notifier (List Nat) Int}
    {refuse : Bytes → Option (List Bytes)}
    (hwalk : ∀ path parent s, N ≤ s.heap.next → Inv K s → ParentAbove s.heap parent path →
      wp fuelOnly (walk path parent) (fun r s' => WalkResult K true path parent s r s' ∧
        WalkOutcome disk N (refuse path) s r s') s)
    (path : Bytes) (wd a : Nat) :
    ∀ (fuel : Nat) (entries : List Dirent) (s : State (List Nat)) (n : WatchNode),
      N ≤ s.heap.next → Inv K s → s.heap.get a = some n → n.wd = wd → n.path = path →
      wp fuelOnly (walkEntries (diskOs disk) walk fuel entries path wd)
        (EntriesOutcome disk N (entries.findSome? fun entry =>
          if disk.descends path entry then refuse (path ++ slash :: entry.name) else none) a s)
        s := by
  intro fuel
  induction fuel with
  | zero => intro entries s n _ _ _ _ _; exact rfl
  | succ fuel ih =>
      intro entries s n hN h hn hwd hpath
      cases entries with
      | nil =>
          refine wp_walkEntries_nil ⟨fun _ => ⟨rfl, Intact.refl N s⟩, fun hr => ?_⟩
          exact absurd hr (by unfold ERR_CONTINUE; omega)
      | cons entry entries =>
          have hget : s.watches.get (wd : Int) = some a := by
            rw [← hwd]
            exact h.wellLinked.slotted.get_of_node hn
          apply wp_walkEntries_cons
          · intro hdir
            rw [List.findSome?_cons, hdir, if_neg (by simp)]
            exact ih entries s n hN h hn hwd hpath
          · intro hdir
            rw [List.findSome?_cons, hdir, if_pos rfl, hget]
            have habove : ParentAbove s.heap (some a) (path ++ slash :: entry.name) := by
              intro p hp
              cases hp
              refine ⟨n, hn, (isParentPath_iff _ _).mpr (Or.inr ⟨entry.name, ?_⟩)⟩
              rw [hpath]
            refine wp_weaken (hwalk _ _ s hN h habove) fun r s₁ hr => ?_
            obtain ⟨hresult, houtcome⟩ := hr
            by_cases hfail : r < 0 ∧ r ≠ ERR_IGNORE
            · rw [if_pos hfail]
              refine wp_weaken (wp_and (wp_rmWatch hresult.inv wd)
                (wp_rmWatch_intact hresult.inv wd)) fun _ s₂ hrm => ?_
              obtain ⟨⟨hshrunk, hgone⟩, hkeep⟩ := hrm
              refine ⟨fun hok => absurd hok (by omega), fun hcontinue => ?_⟩
              obtain ⟨l, hchain, hgood, hbad⟩ := houtcome.failed hcontinue
              refine ⟨l, by rw [hchain], fun hNa hfresh => ?_, ?_⟩
              · have hintact := hgood hfresh
                refine hintact.trans (hkeep N fun a' hget' => ?_)
                -- the descriptor's node is this directory's, or one that came later
                by_contra ha'
                rw [Table.get_natCast] at hget hget'
                obtain ⟨n₁, hn₁, hslot⟩ := hresult.inv.wellLinked.slotted.of_slot hget'
                obtain ⟨n₀, hn₀, hsame⟩ := hresult.walked.old hn₁ (by omega)
                rw [hresult.walked.capacity, hsame.wd] at hslot
                have hslot₀ := h.wellLinked.slotted.of_node hn₀
                rw [hslot, hget] at hslot₀
                cases hslot₀
                exact ha' hNa
              · rintro (haN | hold)
                · exact ⟨a, haN, ⟨n, hn⟩, hshrunk.removed hresult.walked hn (by
                    rw [hwd]
                    exact hgone)⟩
                · exact (hbad hold).shrunk hshrunk
            · rw [if_neg hfail]
              have hok : 0 ≤ r ∨ r = ERR_IGNORE := by
                by_cases hneg : r < 0
                · exact Or.inr (not_not.mp fun hne => hfail ⟨hneg, hne⟩)
                · exact Or.inl (by omega)
              obtain ⟨hnone, hintact⟩ := houtcome.kept hok
              obtain ⟨n₁, hn₁, hsame⟩ := hresult.grows hok hn
              rw [hnone]
              refine wp_weaken (ih entries s₁ n₁ (Nat.le_trans hN hresult.walked.next_le)
                hresult.inv hn₁ (hsame.wd.trans hwd) (hsame.path.trans hpath)) fun r' s' hr' => ?_
              have hhad := had_iff h hresult.inv hresult.walked hintact hN
              refine ⟨fun hok' => ⟨(hr'.kept hok').1, hintact.trans (hr'.kept hok').2⟩,
                fun hcontinue => ?_⟩
              obtain ⟨l, hchain, hgood, hbad⟩ := hr'.failed hcontinue
              simp only [hhad] at hgood hbad
              exact ⟨l, hchain, fun hNa hfresh => hintact.trans (hgood hNa hfresh),
                fun hold => (hbad hold).of_walked hresult.walked hN⟩

/-- What a walk that fails has removed: if none of the directories in which it fails had a
node, nothing that was there before; otherwise some node that was there before. -/
theorem wp_walkTree_outcome (mounts : List Bytes) :
    ∀ (fuel : Nat) (path : Bytes) (parent : Option Nat) (s : State (List Nat)),
      N ≤ s.heap.next → Inv K s → ParentAbove s.heap parent path →
      wp fuelOnly (walkTree (diskOs disk) fuel path parent true mounts)
        (WalkOutcome disk N (disk.refusal mounts fuel path) s) s := by
  intro fuel
  induction fuel with
  | zero => intro path parent s _ _ _; exact rfl
  | succ fuel ih =>
      intro path parent s hN h hp
      unfold walkTree Disk.refusal
      by_cases hmount : (mounts.any fun mount => mount.isPrefixOf path) = true
      · rw [if_pos hmount, if_pos hmount]
        exact ⟨fun _ => ⟨rfl, Intact.refl N s⟩, fun hr => absurd hr (by dsimp only; decide)⟩
      · rw [if_neg hmount, if_neg hmount, if_neg (by simp), wp_bind, wp_sys]
        have hans : diskOs disk (.opendir path) s.os = (disk.opendir path, s.os) := rfl
        rw [hans]
        cases hopen : disk.opendir path with
        | error e =>
            dsimp only
            by_cases he : e = .EACCES ∨ e = .ENOENT ∨ e = .ENOTDIR
            · rw [if_pos he, if_pos he]
              exact ⟨fun _ => ⟨rfl, Intact.refl N s⟩, fun hr => absurd hr (by dsimp only; decide)⟩
            · rw [if_neg he, if_neg he]
              refine ⟨fun hr => absurd hr (by dsimp only; decide), fun _ => ⟨[], rfl, ?_, ?_⟩⟩
              · exact fun _ => Intact.refl N s
              · rintro ⟨p, hp, -⟩
                contradiction
        | ok entries =>
            dsimp only
            rw [wp_bind]
            refine wp_weaken (wp_and (wp_addWatch_inv h hp true)
              (wp_addWatch_outcome h hp.live hN)) fun id s₁ hid => ?_
            obtain ⟨hresult, houtcome⟩ := hid
            by_cases hneg : id < 0
            · rw [if_pos hneg]
              refine ⟨fun hr => ?_, fun hr => ?_⟩
              · have hignore : id = ERR_IGNORE := hr.resolve_left (by dsimp only; omega)
                obtain ⟨hintact, hquiet, -⟩ := houtcome (by rw [hignore]; decide)
                obtain ⟨e, hans, he⟩ := hquiet hignore
                rw [hans]
                dsimp only
                rw [if_neg he]
                exact ⟨rfl, hintact⟩
              · have hcontinue : id = ERR_CONTINUE := hr
                obtain ⟨hintact, -, hlimit, -⟩ := houtcome (by rw [hcontinue]; decide)
                rw [hlimit hcontinue]
                dsimp only
                rw [if_pos rfl]
                refine ⟨[], rfl, fun _ => hintact, ?_⟩
                rintro ⟨p, hp, -⟩
                contradiction
            · rw [if_neg hneg]
              have hnonneg : 0 ≤ id := by omega
              obtain ⟨hintact, -, -, hfound⟩ := houtcome (by unfold ERR_ABORT; omega)
              obtain ⟨wd, a, n, rfl, hans, hn, hwd, hpath, hhad⟩ := hfound hnonneg
              rw [hans]
              dsimp only
              refine wp_weaken (wp_and (wp_walkEntries
                (fun path' parent' s' hinv hp' => wp_walkTree fuel path' parent' true mounts s' hinv hp')
                path wd a fuel entries s₁ n hresult.inv hn hwd hpath)
                (wp_walkEntries_outcome (fun path' parent' s' hN' hinv hp' =>
                  wp_and (wp_walkTree fuel path' parent' true mounts s' hinv hp')
                    (ih path' parent' s' hN' hinv hp')) path wd a fuel entries s₁ n
                  (Nat.le_trans hN hresult.walked.next_le) hresult.inv hn hwd hpath))
                fun r s' hr => ?_
              obtain ⟨hentries, hr⟩ := hr
              refine ⟨fun hok => ?_, fun hcontinue => ?_⟩
              · rcases hok with hok | hignore
                · obtain ⟨hnone, hintact'⟩ := hr.kept hok
                  rw [hnone]
                  exact ⟨rfl, hintact.trans hintact'⟩
                · exfalso
                  rcases hentries.done with ⟨hwd', -⟩ | ⟨hcode | hcode, -⟩
                  · rw [hwd'] at hignore
                    exact absurd hignore (by unfold ERR_IGNORE; omega)
                  · exact absurd (hcode.symm.trans hignore) (by decide)
                  · exact absurd (hcode.symm.trans hignore) (by decide)
              · obtain ⟨l, hchain, hgood, hbad⟩ := hr.failed hcontinue
                have hhad₁ := had_iff h hresult.inv hresult.walked hintact hN
                simp only [hhad₁] at hgood hbad
                refine ⟨path :: l, by rw [hchain]; rfl, fun hfresh => ?_, ?_⟩
                · rw [List.forall_mem_cons] at hfresh
                  have hNa : N ≤ a := Nat.not_lt.mp fun ha => hfresh.1 (hhad.mp ha)
                  exact hintact.trans (hgood hNa hfresh.2)
                · rintro ⟨p, hp, hold⟩
                  refine (hbad ?_).of_walked hresult.walked hN
                  rcases List.mem_cons.mp hp with rfl | hp
                  · exact Or.inl (hhad.mpr hold)
                  · exact Or.inr ⟨p, hp, hold⟩

end Walks
/-! ## Registering roots -/

/-- The nodes of {lit}`s` are in {lit}`s'` as they were, apart from kids that came later, the table
finds them, and the kernel still watches their descriptors. -/
def Unharmed (s s' : State (List Nat)) : Prop :=
  ∀ b n, s.heap.get b = some n → ∃ n', s'.heap.get b = some n' ∧ SameNode n n' ∧
    (∀ k, some k ∈ n.kids → some k ∈ n'.kids) ∧ s'.watches.get (n.wd : Int) = some b ∧
    (n.wd ∈ s.os → n.wd ∈ s'.os)

/-- Every root that is not missing has a node with its descriptor and its path. -/
def RootsOwn (s : State (List Nat)) : Prop :=
  ∀ root ∈ s.roots, 0 ≤ root.id → ∃ a n, s.heap.get a = some n ∧ (n.wd : Int) = root.id ∧
    n.path = rootPath root.path ∧ s.watches.get root.id = some a

/-- Before each root that {lit}`register_roots` watches, none of the directories in which its
registration fails has a node. -/
def Undisturbed (disk : Disk) (fuel : Nat) (mounts : List Bytes) :
    List Bytes → State (List Nat) → Prop
  | [], _ => True
  | root :: roots, s =>
      let check := checkMounts (unflatten root) mounts
      if (unflatten root).head? ≠ some slash ∨ check.skip = true then
        Undisturbed disk fuel mounts roots s
      else
        (∀ p ∈ disk.rootRefusal check.innerMounts fuel root, ¬ HasNode disk s p) ∧
        ∀ id t, (watch (diskOs disk) fuel root check.innerMounts).run s = .ok (id, t) →
          Undisturbed disk fuel mounts roots (t.record root id)

/-- A notifier that was somewhere else finds itself on a disk. -/
def State.onDisk {σ : Type} (s : State σ) (watched : List Nat) : State (List Nat) where
  os := watched
  watches := s.watches
  heap := s.heap
  roots := s.roots
  limitReached := s.limitReached
  stdout := s.stdout

section Registering

variable {disk : Disk} {capacity : Nat} {s s' : State (List Nat)}
  {K : KernelView (diskOs disk) capacity}

/-- With the invariant, to be unharmed is to be intact. -/
theorem unharmed_iff (h : Inv K s) (h' : Inv K s') :
    Unharmed s s' ↔ Intact s.heap.next s s' := by
  constructor
  · intro hun
    constructor
    · intro b n _ hn
      obtain ⟨n', hn', hsame, hkids, -⟩ := hun b n hn
      exact ⟨n', hn', hsame, fun k _ => hkids k⟩
    · intro b n _ hn
      obtain ⟨-, -, -, -, -, hw⟩ := hun b n hn
      exact hw
  · intro hintact b n hn
    obtain ⟨n', hn', hsame, hkids⟩ := hintact.nodes (Heap.lt_next hn) hn
    refine ⟨n', hn', hsame, fun k hk => ?_, ?_, hintact.watched (Heap.lt_next hn) hn⟩
    · obtain ⟨m, hm, -⟩ := h.wellLinked.linked.kid_live hn hk
      exact hkids k (Heap.lt_next hm) hk
    · rw [← hsame.wd]
      exact h'.wellLinked.slotted.get_of_node hn'

/-- All nodes are below the next address. -/
theorem had_next_iff (h : Inv K s) (path : Bytes) :
    Had disk s.heap.next s path ↔ HasNode disk s path := by
  constructor
  · rintro ⟨wd, a, hans, hget, -⟩
    exact ⟨wd, a, hans, hget⟩
  · rintro ⟨wd, a, hans, hget⟩
    obtain ⟨n, hn⟩ := h.wellLinked.slotted.live_of_get hget
    exact ⟨wd, a, hans, hget, Heap.lt_next hn⟩

/-- What {lit}`watch` does to the nodes that were there. -/
structure WatchOutcome (disk : Disk) (root : Bytes) (chain : List Bytes)
    (s : State (List Nat)) (r : Int) (s' : State (List Nat)) : Prop where
  roots : s'.roots = s.roots
  kept : r ≠ ERR_ABORT → r ≠ ERR_CONTINUE → Intact s.heap.next s s'
  failed : r = ERR_CONTINUE → ((∀ p ∈ chain, ¬ Had disk s.heap.next s p) →
    Intact s.heap.next s s') ∧ ((∃ p ∈ chain, Had disk s.heap.next s p) → Lost s.heap.next s s')
  found : 0 ≤ r → ∃ a n, s'.heap.get a = some n ∧ (n.wd : Int) = r ∧ n.path = rootPath root

/-- A watch that changes nothing. -/
theorem WatchOutcome.same {root : Bytes} (s : State (List Nat)) {r : Int} (hr : r < 0) :
    WatchOutcome disk root [] s r s := by
  refine ⟨rfl, fun _ _ => Intact.refl _ s, fun _ => ⟨fun _ => Intact.refl _ s, ?_⟩,
    fun hok => by omega⟩
  rintro ⟨p, hp, -⟩
  contradiction

/-- Watching one directory or file without going into it. -/
theorem wp_walkTree_flat (h : Inv K s) {root : Bytes} {fuel : Nat} {mounts : List Bytes} :
    wp fuelOnly (walkTree (diskOs disk) fuel (rootPath root) none false mounts)
      (fun r s' => Inv K s' ∧ WatchOutcome disk root [] s r s') s := by
  have habove : ParentAbove s.heap none (rootPath root) := by simp [ParentAbove]
  refine wp_weaken (wp_and (wp_walkTree fuel (rootPath root) none false mounts s h habove)
    (?_ : wp fuelOnly _ (fun r s' => r ≠ ERR_ABORT → Intact s.heap.next s s') s))
    fun r s' hr => ⟨hr.1.inv, hr.1.walked.roots, fun hab _ => hr.2 hab, fun hcontinue => ?_,
      hr.1.found⟩
  · cases fuel with
    | zero => exact rfl
    | succ fuel =>
        unfold walkTree
        split
        · exact fun _ => Intact.refl _ s
        · rw [if_pos (by simp)]
          exact wp_weaken (wp_addWatch_outcome h habove.live (Nat.le_refl _))
            fun r s' hr hab => (hr hab).1
  · refine ⟨fun _ => hr.2 (by rw [hcontinue]; decide), ?_⟩
    rintro ⟨p, hp, -⟩
    contradiction

/-- {lit}`watch` on a disk. -/
theorem wp_watch_outcome (h : Inv K s) (fuel : Nat) (root : Bytes) (mounts : List Bytes) :
    wp fuelOnly (watch (diskOs disk) fuel root mounts) (fun r s' => Inv K s' ∧
      WatchOutcome disk root (disk.rootRefusal mounts fuel root) s r s') s := by
  unfold watch Disk.rootRefusal
  rw [wp_bind, wp_sys]
  have hans : diskOs disk (.stat (splitRoot root).2) s.os =
      (disk.stat (splitRoot root).2, s.os) := rfl
  rw [hans]
  cases hstat : disk.stat (splitRoot root).2 with
  | error e =>
      dsimp only
      split
      · exact ⟨h, .same s (by dsimp only; decide)⟩
      · split
        · exact ⟨h, .same s (by dsimp only; decide)⟩
        · exact ⟨h, .same s (by dsimp only; decide)⟩
  | ok type =>
      cases type with
      | reg => exact wp_walkTree_flat h
      | other => exact ⟨h, .same s (by dsimp only; decide)⟩
      | dir =>
          dsimp only
          cases hrec : (splitRoot root).1 with
          | false => exact wp_walkTree_flat h
          | true =>
              have habove : ParentAbove s.heap none (rootPath root) := by simp [ParentAbove]
              rw [if_pos rfl]
              refine wp_weaken (wp_and (wp_walkTree fuel (rootPath root) none true mounts s h habove)
                (wp_walkTree_outcome mounts fuel (rootPath root) none s (Nat.le_refl _) h habove))
                fun r s' hr => ⟨hr.1.inv, hr.1.walked.roots, fun hab hcon => ?_,
                  fun hcontinue => ?_, hr.1.found⟩
              · refine (hr.2.kept ?_).2
                rcases hr.1.code with h0 | h1 | h2 | h3
                · exact Or.inl h0
                · exact Or.inr h1
                · exact absurd h2 hcon
                · exact absurd h3 hab
              · obtain ⟨l, hchain, hgood, hbad⟩ := hr.2.failed hcontinue
                rw [hchain]
                exact ⟨hgood, hbad⟩

/-- Roots keep their nodes when the nodes are intact. -/
theorem RootsOwn.record (h : RootsOwn s) (hinv : Inv K s') {root : Bytes} {id : Int}
    (hroots : s'.roots = s.roots) (hintact : Intact s.heap.next s s')
    (hfound : 0 ≤ id → ∃ a n, s'.heap.get a = some n ∧ (n.wd : Int) = id ∧
      n.path = rootPath root) : RootsOwn (s'.record root id) := by
  have hold : ∀ x ∈ s.roots, 0 ≤ x.id → ∃ a n, s'.heap.get a = some n ∧ (n.wd : Int) = x.id ∧
      n.path = rootPath x.path ∧ s'.watches.get x.id = some a := by
    intro x hx hid
    obtain ⟨a, n, hn, hwd, hpath, -⟩ := h x hx hid
    obtain ⟨n', hn', hsame, -⟩ := hintact.nodes (Heap.lt_next hn) hn
    rw [← hwd, ← hsame.wd]
    exact ⟨a, n', hn', rfl, hsame.path.trans hpath, hinv.wellLinked.slotted.get_of_node hn'⟩
  unfold State.record
  split
  · intro x hx hid
    rcases List.mem_append.mp hx with hx | hx
    · exact hold x (hroots ▸ hx) hid
    · cases List.mem_singleton.mp hx
      obtain ⟨a, n, hn, hwd, hpath⟩ := hfound hid
      refine ⟨a, n, hn, hwd, hpath, ?_⟩
      rw [← hwd]
      exact hinv.wellLinked.slotted.get_of_node hn
  · intro x hx hid
    exact hold x (hroots ▸ hx) hid

/-- A list of roots all of whose failed registrations are harmless. -/
theorem wp_registerRoots_own (fuel : Nat) (mounts : List Bytes) (newRoots : List Bytes) :
    ∀ (unwatchable : List Bytes) (s : State (List Nat)), Inv K s → RootsOwn s →
      Undisturbed disk fuel mounts newRoots s →
      wp fuelOnly (registerRoots (diskOs disk) fuel mounts newRoots unwatchable)
        (fun r s' => r.1 = true → RootsOwn s') s := by
  induction newRoots with
  | nil => exact fun unwatchable s _ hown _ _ => hown
  | cons root newRoots ih =>
      intro unwatchable s h hown hquiet
      unfold Undisturbed at hquiet
      unfold registerRoots
      dsimp only at hquiet ⊢
      by_cases habs : (unflatten root).head? ≠ some slash
      · rw [if_pos (Or.inl habs)] at hquiet
        rw [if_pos habs]
        exact ih _ s h hown hquiet
      · rw [if_neg habs]
        by_cases hskip : (checkMounts (unflatten root) mounts).skip = true
        · rw [if_pos (Or.inr hskip)] at hquiet
          rw [if_pos hskip]
          exact ih _ s h hown hquiet
        · rw [if_neg (by simp only [not_or]; exact ⟨habs, hskip⟩)] at hquiet
          rw [if_neg hskip, wp_bind]
          obtain ⟨hfresh, hnext⟩ := hquiet
          refine wp_weaken (wp_with_run (wp_watch_outcome h fuel root _)) fun id s₁ hid => ?_
          obtain ⟨⟨hinv, hout⟩, hrun⟩ := hid
          have hquiet₁ := hnext id s₁ hrun
          by_cases habort : id = ERR_ABORT
          · rw [habort, if_neg (by decide), if_pos rfl]
            exact fun hok => absurd hok (by simp)
          · have hintact : Intact s.heap.next s s₁ := by
              by_cases hcontinue : id = ERR_CONTINUE
              · refine (hout.failed hcontinue).1 fun p hp hhad => ?_
                exact hfresh p hp ((had_next_iff h p).mp hhad)
              · exact hout.kept habort hcontinue
            have hown₁ := hown.record hinv hout.roots hintact hout.found
            unfold State.record at hquiet₁ hown₁
            by_cases hrecord : 0 ≤ id ∨ id = ERR_MISSING
            · rw [if_pos hrecord] at hquiet₁ hown₁ ⊢
              rw [wp_bind, wp_modify]
              exact ih _ _ (hinv.frame _ _ _) hown₁ hquiet₁
            · rw [if_neg hrecord] at hquiet₁ hown₁ ⊢
              rw [if_neg habort]
              split
              · exact ih _ _ hinv hown₁ hquiet₁
              · exact ih _ _ hinv hown₁ hquiet₁

end Registering

/-- A good session is still good on a disk. -/
theorem Good.onDisk {σ δ : Type} {os : Os σ δ} {capacity : Nat} {K : KernelView os capacity}
    {t : State σ} (h : Good K t) (disk : Disk) (watched : List Nat) :
    Inv (looseView (diskOs disk) capacity) (t.onDisk watched) :=
  ⟨h.inv.capacity, h.inv.wellLinked, h.inv.below, fun _ => trivial, fun hno => absurd trivial hno⟩

/-- From any state that a session can reach, on any disk: a registration that fails leaves all
earlier nodes and watches unharmed if and only if none of the directories in which it fails
had a node.  If this holds of every root in a list, every registered root keeps the node
with its descriptor and its path. -/
theorem failed_watch_intact_iff {σ δ : Type} {os : Os σ δ} (hsingle : SingleEvents os) {o : σ}
    {watchCount : Nat} (hpos : 0 < watchCount) {t : State σ}
    (hreach : Reachable os (start o watchCount hpos) t) (disk : Disk) (watched : List Nat)
    (fuel : Nat) (mounts : List Bytes) :
    (∀ root s', (watch (diskOs disk) fuel root mounts).run (t.onDisk watched) =
        .ok (ERR_CONTINUE, s') →
      (Unharmed (t.onDisk watched) s' ↔
        ∀ p ∈ disk.rootRefusal mounts fuel root, ¬ HasNode disk (t.onDisk watched) p)) ∧
    (∀ newRoots unwatchable unwatchable' s', RootsOwn (t.onDisk watched) →
      Undisturbed disk fuel mounts newRoots (t.onDisk watched) →
      (registerRoots (diskOs disk) fuel mounts newRoots unwatchable).run (t.onDisk watched) =
        .ok ((true, unwatchable'), s') → RootsOwn s') := by
  have hgood : Good (looseView os watchCount) t :=
    hreach.good (good_start hpos fun _ hw => hw) hsingle
  have h := hgood.onDisk disk watched
  constructor
  · intro root s' hrun
    obtain ⟨hinv, hout⟩ := run_of_wp (wp_watch_outcome h fuel root mounts) hrun
    obtain ⟨hgood, hbad⟩ := hout.failed rfl
    rw [unharmed_iff h hinv]
    constructor
    · intro hintact p hp hhas
      exact (hbad ⟨p, hp, (had_next_iff h p).mpr hhas⟩).not_intact hintact
    · intro hfresh
      exact hgood fun p hp hhad => hfresh p hp ((had_next_iff h p).mp hhad)
  · intro newRoots unwatchable unwatchable' s' hown hquiet hrun
    exact run_of_wp (wp_registerRoots_own fuel mounts newRoots unwatchable _ h hown hquiet) hrun rfl

/-! ## An overlap -/

/-- Directories {lit}`/r`, {lit}`/r/a` and {lit}`/r/a/b`, the last of which cannot be watched any more. -/
def fullDisk : Disk where
  stat _ := .ok .dir
  opendir path :=
    if path = cstr "/r" then .ok [⟨cstr "a", .DT_DIR⟩]
    else if path = cstr "/r/a" then .ok [⟨cstr "b", .DT_DIR⟩]
    else .ok []
  addWatch path :=
    if path = cstr "/r/a" then .ok 1 else if path = cstr "/r" then .ok 2 else .error .ENOSPC
  mounts := []

/-- A notifier on this disk that watches nothing. -/
def nothingWatched : State (List Nat) :=
  start [] 8 (by decide)

theorem fullDisk_singleEvents : SingleEvents (diskOs fullDisk) := by
  intro o events hread event hevent
  cases hread
  contradiction

/-- With {lit}`/r/a` watched as a flat root, the registration of {lit}`/r` fails in a directory that has
a node and takes the node away; alone, the flat root keeps its node. -/
theorem failed_watch_intact_iff_overlap :
    (∃ t s', Reachable (diskOs fullDisk) nothingWatched t ∧
      (watch (diskOs fullDisk) 5 (cstr "/r") []).run (t.onDisk t.os) = .ok (ERR_CONTINUE, s') ∧
      ¬ Unharmed (t.onDisk t.os) s') ∧
    ∃ s', (registerRoots (diskOs fullDisk) 5 [] [cstr "|/r/a"] []).run nothingWatched =
      .ok ((true, []), s') ∧ RootsOwn s' := by
  constructor
  · have hfirst : returned ((perform (diskOs fullDisk) 5 (.updateRoots [cstr "|/r/a"])).run
        nothingWatched) true (fun t => decide (t.watches.get (1 : Nat) = some 0)) = true := by
      decide +kernel
    have hsecond : returned ((watch (diskOs fullDisk) 5 (cstr "/r") []).run
        ((finalState (perform (diskOs fullDisk) 5 (.updateRoots [cstr "|/r/a"]))
          nothingWatched).onDisk (finalState (perform (diskOs fullDisk) 5
          (.updateRoots [cstr "|/r/a"])) nothingWatched).os)) ERR_CONTINUE
        (fun _ => true) = true := by decide +kernel
    obtain ⟨hrun, hslot⟩ := run_finalState hfirst
    obtain ⟨hrun', -⟩ := run_finalState hsecond
    have hreach := Reachable.turn 5 (.updateRoots [cstr "|/r/a"]) true .start hrun
    refine ⟨_, _, hreach, hrun', fun hun => ?_⟩
    have hiff := (failed_watch_intact_iff fullDisk_singleEvents (by decide) hreach fullDisk
      (finalState (perform (diskOs fullDisk) 5 (.updateRoots [cstr "|/r/a"]))
        nothingWatched).os 5 []).1 _ _ hrun'
    exact hiff.mp hun (cstr "/r/a") (by decide +kernel) ⟨1, 0, by decide, of_decide_eq_true hslot⟩
  · have hcheck : returned ((registerRoots (diskOs fullDisk) 5 [] [cstr "|/r/a"] []).run
        nothingWatched) (true, []) (fun _ => true) = true := by decide +kernel
    obtain ⟨hrun, -⟩ := run_finalState hcheck
    have hstart : Reachable (diskOs fullDisk) nothingWatched nothingWatched := .start
    refine ⟨_, hrun, (failed_watch_intact_iff fullDisk_singleEvents (by decide) hstart fullDisk
      [] 5 []).2 [cstr "|/r/a"] [] [] _ ?_ ?_ hrun⟩
    · intro root hroot
      contradiction
    · have hnone : fullDisk.rootRefusal [] 5 (cstr "|/r/a") = [] := by decide +kernel
      unfold Undisturbed
      dsimp only
      rw [if_neg (by decide)]
      refine ⟨fun p hp => ?_, fun id t _ => trivial⟩
      have hp' : p ∈ fullDisk.rootRefusal [] 5 (cstr "|/r/a") := hp
      rw [hnone] at hp'
      contradiction

/-- {lit}`register_roots` succeeds on two roots that overlap, and the first one, which it has
recorded as watched, has neither a node nor a kernel watch any more. -/
theorem flat_root_lost :
    ∃ s, (updateRoots (diskOs fullDisk) 5 [cstr "|/r/a", cstr "/r"]).run nothingWatched =
        .ok (true, s) ∧ ⟨cstr "|/r/a", 1⟩ ∈ s.roots ∧ s.watches.get 1 = none ∧ 1 ∉ s.os ∧
      ¬ RootsOwn s := by
  have hcheck : returned ((updateRoots (diskOs fullDisk) 5 [cstr "|/r/a", cstr "/r"]).run
      nothingWatched) true (fun s => decide (⟨cstr "|/r/a", 1⟩ ∈ s.roots ∧
        s.watches.get 1 = none ∧ 1 ∉ s.os)) = true := by decide +kernel
  obtain ⟨s, hrun, htest⟩ := exists_of_returned hcheck
  obtain ⟨hroot, hslot, hwatch⟩ := of_decide_eq_true htest
  refine ⟨s, hrun, hroot, hslot, hwatch, fun hown => ?_⟩
  obtain ⟨a, -, -, -, -, hget⟩ := hown _ hroot (by decide)
  rw [hslot] at hget
  cases hget

end FsNotifier
end IdeMultiarch
