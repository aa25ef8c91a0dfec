import Mathlib.Data.Finset.Card
import Mathlib.Data.Finset.Lattice.Fold
import Mathlib.Order.Lattice.Nat
import IdeMultiarch.FsNotifier.Consistency

/-!
# fsnotifier - walks over a file system that stands still

A file system in which nothing changes: paths lead to inodes, and the entries of a
directory belong to its inode.  Links may lead anywhere, so that the paths a walk meets
grow without bound along a cycle.  The walk ends all the same: the kernel answers with the
old descriptor where it knows the inode, and {lit}`add_watch` takes no second path for it.

Main results:

- Theorem {lit}`wp_walkEntries_once`: the loop over one directory.
- Theorem {lit}`wp_walkTree_once`: a walk that skips what it has enumerated before.
- Theorem {lit}`walk_ends_and_enumerates_once`: every walk ends, and it enumerates no inode
  twice.
-/

namespace IdeMultiarch
namespace FsNotifier

open Library

/-! ## A file system that stands still -/

/-- Where paths lead and what directories contain.  {lit}`lookup` follows links, as
{lit}`stat`, {lit}`opendir` and {lit}`inotify_add_watch` do. -/
structure StaticFs where
  lookup : Bytes → Except Errno (FileType × Nat)
  realpath : Bytes → Option Bytes
  entries : Nat → List Dirent
  mounts : Option (List Mntent)
  directories : Finset Nat
  mem_directories : ∀ {path inode}, lookup path = .ok (.dir, inode) → inode ∈ directories
  names_nodup : ∀ inode, ((entries inode).map (·.name)).Nodup
  not_slash : ∀ {inode entry}, entry ∈ entries inode → slash ∉ entry.name

/-- The longest directory. -/
def StaticFs.longest (fs : StaticFs) : Nat :=
  fs.directories.sup fun inode => (fs.entries inode).length

/-- The inotify instance: the descriptor under which an inode is watched.  On the side it
lists the directories whose entries were read, with the paths under which they were opened. -/
structure InotifyKernel where
  wdOf : Nat → Option Nat
  enumerated : List (Bytes × Nat)
  calls : Nat

namespace InotifyKernel

def tick (kernel : InotifyKernel) : InotifyKernel :=
  { kernel with calls := kernel.calls + 1 }

/-- Watch an inode. -/
def give (kernel : InotifyKernel) (inode wd : Nat) : InotifyKernel :=
  { kernel with wdOf := Function.update kernel.wdOf inode (some wd) }

/-- Watch nothing under a descriptor any more. -/
def take (kernel : InotifyKernel) (wd : Nat) : InotifyKernel :=
  { kernel with wdOf := fun inode => (kernel.wdOf inode).filter fun w => w ≠ wd }

end InotifyKernel

/-- A directory stream; {lit}`started` says whether an entry was asked for. -/
structure EntryStream where
  path : Bytes
  inode : Nat
  started : Bool
  rest : List Dirent

namespace EntryStream

/-- The list of enumerated directories after the next {lit}`readdir`. -/
def note (dir : EntryStream) (enumerated : List (Bytes × Nat)) : List (Bytes × Nat) :=
  if dir.started then enumerated else enumerated ++ [(dir.path, dir.inode)]

/-- The stream after the next {lit}`readdir`. -/
def next (dir : EntryStream) : EntryStream :=
  { dir with started := true, rest := dir.rest.tail }

end EntryStream

/-- What is left open by the file system: which calls are denied, which descriptor a new watch
gets, and which events are delivered. -/
structure KernelPolicy where
  denyOpen : InotifyKernel → Bytes → Option Errno
  denyAdd : InotifyKernel → Bytes → Option Errno
  allocate : InotifyKernel → Nat
  events : InotifyKernel → Except Errno (List InotifyEvent)
  single : ∀ {kernel delivered}, events kernel = .ok delivered →
    ∀ event ∈ delivered, SingleType event.mask

/-- The world of a file system that stands still. -/
def staticOs (fs : StaticFs) (policy : KernelPolicy) : Os InotifyKernel EntryStream
  | .inotifyAddWatch path, kernel =>
      match policy.denyAdd kernel path, fs.lookup path with
      | some e, _ => (.error e, kernel.tick)
      | none, .error e => (.error e, kernel.tick)
      | none, .ok (_, inode) =>
          match kernel.wdOf inode with
          | some wd => (.ok wd, kernel.tick)
          | none => (.ok (policy.allocate kernel),
              (kernel.give inode (policy.allocate kernel)).tick)
  | .inotifyRmWatch wd, kernel => (.ok (), (kernel.take wd).tick)
  | .opendir path, kernel =>
      match policy.denyOpen kernel path, fs.lookup path with
      | some e, _ => (.error e, kernel.tick)
      | none, .error e => (.error e, kernel.tick)
      | none, .ok (.dir, inode) => (.ok ⟨path, inode, false, fs.entries inode⟩, kernel.tick)
      | none, .ok _ => (.error .ENOTDIR, kernel.tick)
  | .readdir dir, kernel =>
      (dir.rest.head?.map fun entry => (entry, dir.next),
        { kernel.tick with enumerated := dir.note kernel.enumerated })
  | .stat path, kernel => ((fs.lookup path).map Prod.fst, kernel.tick)
  | .realpath path, kernel => (fs.realpath path, kernel.tick)
  | .read, kernel => (policy.events kernel, kernel.tick)
  | .getmntent, kernel => (fs.mounts, kernel.tick)

section Answers

variable {fs : StaticFs} {policy : KernelPolicy}

theorem staticOs_singleEvents : SingleEvents (staticOs fs policy) :=
  fun _ _ hread => policy.single hread

/-- Only {lit}`readdir` enumerates. -/
theorem staticOs_enumerated (c : SysCall EntryStream) (hc : ∀ dir, c ≠ .readdir dir)
    (kernel : InotifyKernel) :
    (staticOs fs policy c kernel).2.enumerated = kernel.enumerated := by
  cases c with
  | readdir dir => exact absurd rfl (hc dir)
  | inotifyAddWatch path =>
      unfold staticOs
      dsimp only
      split
      · rfl
      · rfl
      · split <;> rfl
  | opendir path =>
      unfold staticOs
      dsimp only
      split <;> rfl
  | _ => rfl

/-- A stream that was opened starts with all the entries of the inode the path leads to. -/
theorem staticOs_opendir {path : Bytes} {kernel : InotifyKernel} {dir : EntryStream}
    (hopen : (staticOs fs policy (.opendir path) kernel).1 = .ok dir) :
    ∃ inode, fs.lookup path = .ok (.dir, inode) ∧ dir = ⟨path, inode, false, fs.entries inode⟩ := by
  unfold staticOs at hopen
  dsimp only at hopen
  split at hopen
  · contradiction
  · contradiction
  · rename_i inode _ hlookup
    exact ⟨inode, hlookup, (Except.ok.inj hopen).symm⟩
  · contradiction

/-- An answer of {lit}`inotify_add_watch` is the descriptor of the inode from then on. -/
theorem staticOs_add {path : Bytes} {kernel : InotifyKernel} {wd : Nat}
    (hadd : (staticOs fs policy (.inotifyAddWatch path) kernel).1 = .ok wd) :
    ∃ type inode, fs.lookup path = .ok (type, inode) ∧
      (staticOs fs policy (.inotifyAddWatch path) kernel).2.wdOf inode = some wd := by
  unfold staticOs at hadd ⊢
  dsimp only at hadd ⊢
  split at hadd
  · contradiction
  · contradiction
  · rename_i type inode _ hlookup
    refine ⟨type, inode, hlookup, ?_⟩
    split at hadd
    · rename_i wd' hwd
      cases hadd
      exact hwd
    · cases hadd
      exact Function.update_self _ _ _

/-- A descriptor is kept until it is given back. -/
theorem staticOs_keep {c : SysCall EntryStream} {kernel : InotifyKernel} {inode wd : Nat}
    (hc : c ≠ .inotifyRmWatch wd) (hwd : kernel.wdOf inode = some wd) :
    (staticOs fs policy c kernel).2.wdOf inode = some wd := by
  cases c with
  | inotifyAddWatch path =>
      unfold staticOs
      dsimp only
      split
      · exact hwd
      · exact hwd
      · rename_i other _ _
        split
        · exact hwd
        · rename_i hnone
          have hne : inode ≠ other := by
            rintro rfl
            rw [hnone] at hwd
            contradiction
          exact (Function.update_of_ne hne _ _).trans hwd
  | inotifyRmWatch other =>
      have hne : wd ≠ other := by
        rintro rfl
        exact hc rfl
      change (kernel.wdOf inode).filter (fun w => w ≠ other) = some wd
      rw [hwd, Option.filter_some, if_pos (by simpa using hne)]
  | opendir path =>
      unfold staticOs
      dsimp only
      split <;> exact hwd
  | _ => exact hwd

end Answers

/-- A descriptor is held for every path that leads to the inode it watches. -/
def staticView (fs : StaticFs) (policy : KernelPolicy) (capacity : Nat) :
    KernelView (staticOs fs policy) capacity where
  watched _ _ := False
  held kernel wd path := ∃ type inode, fs.lookup path = .ok (type, inode) ∧
    kernel.wdOf inode = some wd
  clash _ := True
  moved _ := True
  refused _ := True
  held_add _ _ _ hadd := staticOs_add hadd
  held_keep _ _ _ _ hc := by
    rintro ⟨type, inode, hlookup, hwd⟩
    exact ⟨type, inode, hlookup, staticOs_keep hc hwd⟩
  clash_add _ _ _ _ _ _ _ _ _ := trivial
  moved_add _ _ _ _ _ _ _ := trivial
  refused_add _ _ _ _ _ _ _ := trivial
  clash_mono _ _ _ := trivial
  moved_mono _ _ _ := trivial
  refused_mono _ _ _ := trivial
  watched_add _ _ _ h := h.elim
  watched_rm _ _ _ h := h.elim
  watched_look _ _ _ _ h := h

/-! ## What a walk enumerates -/

/-- Directories were enumerated under paths that lead to them, and no inode twice. -/
structure EnumeratedOnce (fs : StaticFs) (seen : List (Bytes × Nat)) : Prop where
  lookup : ∀ x ∈ seen, fs.lookup x.1 = .ok (.dir, x.2)
  nodup : (seen.map Prod.snd).Nodup

/-- Every directory of the list is watched under its path. -/
def HasNodes (s : State InotifyKernel) (seen : List (Bytes × Nat)) : Prop :=
  ∀ x ∈ seen, ∃ a n, s.heap.get a = some n ∧ n.path = x.1

/-- No directory of the list lies at or below a path. -/
def Apart (path : Bytes) (seen : List (Bytes × Nat)) : Prop :=
  ∀ x ∈ seen, isParentPath path x.1 = false

/-- What a walk from {lit}`path` enumerates when it returns {lit}`r`: the directories
{lit}`new`, all at or below the path and none of them in {lit}`seen`. -/
structure Enumerates (fs : StaticFs) (seen new : List (Bytes × Nat)) (path : Bytes) (r : Int)
    (s' : State InotifyKernel) : Prop where
  once : EnumeratedOnce fs (seen ++ new)
  below : ∀ x ∈ new, isParentPath path x.1 = true
  nodes : 0 ≤ r ∨ r = ERR_IGNORE → HasNodes s' (seen ++ new)

/-- A walk from {lit}`path` adds to the list {lit}`log` what it enumerates. -/
def WalkedOnce (fs : StaticFs) (log seen : List (Bytes × Nat)) (path : Bytes) (r : Int)
    (s' : State InotifyKernel) : Prop :=
  ∃ new, s'.os.enumerated = log ++ new ∧ Enumerates fs seen new path r s'

/-- Two nodes never watch the same inode. -/
def OneNodePerInode (fs : StaticFs) (s : State InotifyKernel) : Prop :=
  ∀ {a b n m type type' inode}, s.heap.get a = some n → s.heap.get b = some m →
    fs.lookup n.path = .ok (type, inode) → fs.lookup m.path = .ok (type', inode) → a = b

section Enumerating

variable {fs : StaticFs} {policy : KernelPolicy} {capacity : Nat}
  {seen new : List (Bytes × Nat)} {s s' : State InotifyKernel}

theorem EnumeratedOnce.nil : EnumeratedOnce fs [] :=
  ⟨by simp, List.nodup_nil⟩

/-- No more directories are enumerated than there are. -/
theorem EnumeratedOnce.length_le (h : EnumeratedOnce fs seen) :
    seen.length ≤ fs.directories.card := by
  have hsub : (seen.map Prod.snd).toFinset ⊆ fs.directories := by
    intro inode hinode
    obtain ⟨x, hx, rfl⟩ := List.mem_map.mp (List.mem_toFinset.mp hinode)
    exact fs.mem_directories (h.lookup x hx)
  calc
    seen.length = (seen.map Prod.snd).length := (List.length_map _).symm
    _ = (seen.map Prod.snd).toFinset.card := (List.toFinset_card_of_nodup h.nodup).symm
    _ ≤ fs.directories.card := Finset.card_le_card hsub

/-- A directory that is not in the list may be added to it. -/
theorem EnumeratedOnce.snoc (h : EnumeratedOnce fs seen) {path : Bytes} {inode : Nat}
    (hlookup : fs.lookup path = .ok (.dir, inode)) (hnew : inode ∉ seen.map Prod.snd) :
    EnumeratedOnce fs (seen ++ [(path, inode)]) := by
  refine ⟨?_, ?_⟩
  · intro x hx
    rcases List.mem_append.mp hx with hx | hx
    · exact h.lookup x hx
    · obtain rfl := List.mem_singleton.mp hx
      exact hlookup
  · rw [List.map_append, List.nodup_append]
    refine ⟨h.nodup, List.nodup_singleton _, ?_⟩
    intro i hi j hj hij
    obtain rfl := List.mem_singleton.mp hj
    exact hnew (hij ▸ hi)

theorem HasNodes.grows (h : HasNodes s seen) (hgrows : Grows s s') : HasNodes s' seen := by
  intro x hx
  obtain ⟨a, n, hn, hpath⟩ := h x hx
  obtain ⟨n', hn', hsame⟩ := hgrows hn
  exact ⟨a, n', hn', hsame.path.trans hpath⟩

theorem HasNodes.snoc (h : HasNodes s seen) {path : Bytes} {inode a : Nat} {n : WatchNode}
    (hn : s.heap.get a = some n) (hpath : n.path = path) :
    HasNodes s (seen ++ [(path, inode)]) := by
  intro x hx
  rcases List.mem_append.mp hx with hx | hx
  · exact h x hx
  · obtain rfl := List.mem_singleton.mp hx
    exact ⟨a, n, hn, hpath⟩

/-- The kernel has one descriptor for an inode, and the table one node for a descriptor. -/
theorem Inv.oneNodePerInode (h : Inv (staticView fs policy capacity) s) :
    OneNodePerInode fs s := by
  intro a b n m type type' inode hn hm hlookup hlookup'
  obtain ⟨_, i, hi, hwd⟩ := h.held hn
  obtain ⟨_, j, hj, hwd'⟩ := h.held hm
  obtain rfl : i = inode := by
    rw [hlookup] at hi
    cases hi
    rfl
  obtain rfl : j = i := by
    rw [hlookup'] at hj
    cases hj
    rfl
  have hsame : m.wd = n.wd := by
    rw [hwd] at hwd'
    exact (Option.some.inj hwd').symm
  have hslot := h.wellLinked.slotted.get_of_node hm
  rw [hsame, h.wellLinked.slotted.get_of_node hn] at hslot
  exact Option.some.inj hslot

/-- A directory that is watched under a path apart from the list is none of the list: the
node of its inode has one path only. -/
theorem Inv.inode_new (h : Inv (staticView fs policy capacity) s) (honce : EnumeratedOnce fs seen)
    (hnodes : HasNodes s seen) {path : Bytes} {inode a : Nat} {n : WatchNode}
    (hapart : Apart path seen) (hlookup : fs.lookup path = .ok (.dir, inode))
    (hn : s.heap.get a = some n) (hpath : n.path = path) : inode ∉ seen.map Prod.snd := by
  intro hmem
  obtain ⟨x, hx, rfl⟩ := List.mem_map.mp hmem
  obtain ⟨b, m, hm, hmpath⟩ := hnodes x hx
  have hab : a = b := h.oneNodePerInode hn hm (by rw [hpath]; exact hlookup)
    (by rw [hmpath]; exact honce.lookup x hx)
  subst hab
  rw [hn] at hm
  cases hm
  have hself := hapart x hx
  rw [← hmpath, hpath, isParentPath_refl] at hself
  contradiction

/-- Paths through two entries of a directory never meet. -/
theorem Apart.of_entry {path name other p : Bytes} (hname : slash ∉ name) (hother : slash ∉ other)
    (hne : name ≠ other) (hp : isParentPath (path ++ slash :: name) p = true) :
    isParentPath (path ++ slash :: other) p = false := by
  rw [Bool.eq_false_iff]
  intro hp'
  have hspell : ∀ {m}, isParentPath (path ++ slash :: m) p = true →
      ∃ rest, SlashFirst rest ∧ p = path ++ slash :: (m ++ rest) := by
    intro m hm
    rcases (isParentPath_iff _ _).mp hm with rfl | ⟨rest, rfl⟩
    · exact ⟨[], Or.inl rfl, by simp⟩
    · exact ⟨slash :: rest, Or.inr ⟨rest, rfl⟩, by simp⟩
  obtain ⟨rest, hrest, rfl⟩ := hspell hp
  obtain ⟨rest', hrest', heq⟩ := hspell hp'
  have htail := (List.cons.inj (List.append_cancel_left heq)).2
  exact hne (name_append_inj hname hother hrest hrest' htail).1

/-- A directory does not lie below its entries. -/
theorem isParentPath_entry_self (path name : Bytes) :
    isParentPath (path ++ slash :: name) path = false := by
  rw [Bool.eq_false_iff]
  intro hbelow
  rcases (isParentPath_iff _ _).mp hbelow with heq | ⟨rest, heq⟩
  · have hlen := congrArg List.length heq
    rw [List.length_append, List.length_cons] at hlen
    omega
  · have hlen := congrArg List.length heq
    rw [List.length_append, List.length_append, List.length_cons] at hlen
    omega

/-- What lies apart from a directory lies apart from its entries, and so does the directory. -/
theorem Apart.snoc {path : Bytes} (h : Apart path seen) (name : Bytes) (inode : Nat) :
    Apart (path ++ slash :: name) (seen ++ [(path, inode)]) := by
  intro x hx
  rcases List.mem_append.mp hx with hx | hx
  · rw [Bool.eq_false_iff]
    intro hbelow
    have hsub : isParentPath path (path ++ slash :: name) = true :=
      (isParentPath_iff _ _).mpr (Or.inr ⟨name, rfl⟩)
    have hfalse := h x hx
    rw [isParentPath_trans hsub hbelow] at hfalse
    contradiction
  · obtain rfl := List.mem_singleton.mp hx
    exact isParentPath_entry_self path name

/-! ## The calls of a walk enumerate nothing but by reading -/

theorem rmCalls_enumerated (wds : List Nat) (kernel : InotifyKernel) :
    (rmCalls (staticOs fs policy) wds kernel).enumerated = kernel.enumerated := by
  induction wds generalizing kernel with
  | nil => rfl
  | cons wd wds ih => exact ih _

/-- {lit}`rm_watch` enumerates nothing. -/
theorem wp_rmWatch_enumerated {tol : Fault → Prop} (h : Inv (staticView fs policy capacity) s)
    (key : Int) : wp tol (rmWatch (staticOs fs policy) key true)
      (fun _ s' => s'.os.enumerated = s.os.enumerated) s := by
  cases hget : s.watches.get key with
  | none => exact wp_of_run (rmWatch_run_none _ true hget) rfl
  | some a =>
      obtain ⟨n, hn⟩ := h.wellLinked.slotted.live_of_get hget
      obtain ⟨L, hL⟩ := h.wellLinked.exists_subtree hn
      have hrun := rmWatch_run_some (staticOs fs policy) h.wellLinked true hget hL
      rw [if_pos rfl] at hrun
      exact wp_of_run hrun (rmCalls_enumerated _ _)

/-- {lit}`add_watch` enumerates nothing. -/
theorem wp_addWatch_enumerated {tol : Fault → Prop} (h : Inv (staticView fs policy capacity) s)
    {path : Bytes} {parent : Option Nat} (hp : ParentAbove s.heap parent path) :
    wp tol (addWatch (staticOs fs policy) path parent)
      (fun _ s' => s'.os.enumerated = s.os.enumerated) s := by
  have hadd : (staticOs fs policy (.inotifyAddWatch path) s.os).2.enumerated = s.os.enumerated :=
    staticOs_enumerated _ (by simp) _
  apply wp_addWatch (staticOs fs policy) h.wellLinked hp.live rfl
  · exact fun _ _ _ => hadd
  · exact fun _ _ _ => hadd
  · exact fun _ _ _ _ _ => hadd
  · exact fun _ _ _ _ _ _ _ => hadd
  · exact fun _ _ _ _ _ _ _ => hadd
  · exact fun _ _ _ _ _ _ _ _ _ => hadd
  · exact fun _ _ _ => hadd

end Enumerating

/-! ## The loop over one directory -/

section Walk

variable {fs : StaticFs} {policy : KernelPolicy} {capacity : Nat}

/-- What is enumerated first and what is enumerated after it. -/
theorem WalkedOnce.after {log seen new : List (Bytes × Nat)} {path sub : Bytes} {r₁ r : Int}
    {s₁ s' : State InotifyKernel} (hsub : isParentPath path sub = true)
    (h₁ : Enumerates fs seen new sub r₁ s₁)
    (h : WalkedOnce fs (log ++ new) (seen ++ new) path r s') :
    WalkedOnce fs log seen path r s' := by
  obtain ⟨more, hlog, honce, hbelow, hnodes⟩ := h
  refine ⟨new ++ more, by rw [hlog, List.append_assoc], ?_, ?_, ?_⟩
  · rw [← List.append_assoc]
    exact honce
  · intro x hx
    rcases List.mem_append.mp hx with hx | hx
    · exact isParentPath_trans hsub (h₁.below x hx)
    · exact hbelow x hx
  · rw [← List.append_assoc]
    exact hnodes

/-- A result after which nothing more is enumerated. -/
theorem WalkedOnce.of_none {log seen : List (Bytes × Nat)} {path : Bytes} {r : Int}
    {s' : State InotifyKernel} (hlog : s'.os.enumerated = log) (honce : EnumeratedOnce fs seen)
    (hnodes : 0 ≤ r ∨ r = ERR_IGNORE → HasNodes s' seen) : WalkedOnce fs log seen path r s' := by
  refine ⟨[], by rw [hlog, List.append_nil], ?_, by simp, ?_⟩
  · rw [List.append_nil]
    exact honce
  · rw [List.append_nil]
    exact hnodes

/-- The recursive call of a loop may assume room for so many directories more. -/
def WalksOnce (fs : StaticFs) (policy : KernelPolicy) (capacity room : Nat)
    (walk : Bytes → Option Nat → Notifier InotifyKernel Int) : Prop :=
  ∀ path parent s seen, Inv (staticView fs policy capacity) s → ParentAbove s.heap parent path →
    EnumeratedOnce fs seen → HasNodes s seen → Apart path seen →
    fs.directories.card + fs.longest + 2 ≤ seen.length + room →
    wp (fun _ => False) (walk path parent) (fun r s' =>
      WalkResult (staticView fs policy capacity) true path parent s r s' ∧
      WalkedOnce fs s.os.enumerated seen path r s') s

/-- What a loop knows of the entries it has not read yet. -/
structure Unread (path : Bytes) (seen : List (Bytes × Nat)) (rest : List Dirent) : Prop where
  nodup : (rest.map (·.name)).Nodup
  not_slash : ∀ entry ∈ rest, slash ∉ entry.name
  apart : ∀ entry ∈ rest, Apart (path ++ slash :: entry.name) seen

theorem Unread.tail {path : Bytes} {seen : List (Bytes × Nat)} {entry : Dirent}
    {rest : List Dirent} (h : Unread path seen (entry :: rest)) : Unread path seen rest :=
  ⟨(List.nodup_cons.mp h.nodup).2, fun e he => h.not_slash e (List.mem_cons_of_mem _ he),
    fun e he => h.apart e (List.mem_cons_of_mem _ he)⟩

/-- What is enumerated below one entry does not touch the others. -/
theorem Unread.walked {path : Bytes} {seen new : List (Bytes × Nat)} {entry : Dirent}
    {rest : List Dirent} (h : Unread path seen (entry :: rest))
    (hnew : ∀ x ∈ new, isParentPath (path ++ slash :: entry.name) x.1 = true) :
    Unread path (seen ++ new) rest := by
  refine ⟨h.tail.nodup, h.tail.not_slash, ?_⟩
  intro other hother x hx
  rcases List.mem_append.mp hx with hx | hx
  · exact h.tail.apart other hother x hx
  · have hne : entry.name ≠ other.name := by
      intro heq
      exact (List.nodup_cons.mp h.nodup).1 (List.mem_map.mpr ⟨other, hother, heq.symm⟩)
    exact Apart.of_entry (h.not_slash entry (by simp)) (h.tail.not_slash other hother) hne
      (hnew x hx)

/-- The walk into a subdirectory and what follows it enumerate no inode twice, given that both do
so on their own. -/
theorem wp_enterEntry_once {room : Nat} {walk : Bytes → Option Nat → Notifier InotifyKernel Int}
    (hwalk : WalksOnce fs policy capacity room walk) {next : Notifier InotifyKernel Int}
    {path : Bytes} {wd a : Nat} {entry : Dirent} {rest : List Dirent} {s : State InotifyKernel}
    {n : WatchNode} {seen : List (Bytes × Nat)} (h : Inv (staticView fs policy capacity) s)
    (hn : s.heap.get a = some n) (hwd : n.wd = wd) (hpath : n.path = path)
    (honce : EnumeratedOnce fs seen) (hnodes : HasNodes s seen)
    (hunread : Unread path seen (entry :: rest))
    (hroom : fs.directories.card + fs.longest + 2 ≤ seen.length + room)
    (hnext : ∀ s' n' seen', Inv (staticView fs policy capacity) s' → s'.heap.get a = some n' →
      n'.wd = wd → n'.path = path → EnumeratedOnce fs seen' → HasNodes s' seen' →
      Unread path seen' rest → fs.directories.card + fs.longest + 2 ≤ seen'.length + room →
        wp (fun _ => False) next (WalkedOnce fs s'.os.enumerated seen' path) s') :
    wp (fun _ => False) (do
        let subdirId ← walk (path ++ slash :: entry.name) (← tableGet wd)
        if subdirId < 0 ∧ subdirId ≠ ERR_IGNORE then do
          rmWatch (staticOs fs policy) wd true
          pure subdirId
        else next)
      (WalkedOnce fs s.os.enumerated seen path) s := by
  have hparent : s.watches.get wd = some a := by
    rw [← hwd]
    exact h.wellLinked.slotted.get_of_node hn
  have hsub : isParentPath path (path ++ slash :: entry.name) = true :=
    (isParentPath_iff _ _).mpr (Or.inr ⟨entry.name, rfl⟩)
  have habove : ParentAbove s.heap (some a) (path ++ slash :: entry.name) := by
    intro p hp
    cases hp
    exact ⟨n, hn, by rw [hpath]; exact hsub⟩
  rw [wp_bind, wp_tableGet, hparent, wp_bind]
  refine wp_weaken (hwalk _ _ s seen h habove honce hnodes (hunread.apart entry (by simp)) hroom)
    fun r s₁ hr => ?_
  obtain ⟨hresult, new, hlog₁, henum⟩ := hr
  by_cases hfail : r < 0 ∧ r ≠ ERR_IGNORE
  · rw [if_pos hfail, wp_bind]
    refine wp_weaken (wp_rmWatch_enumerated hresult.inv wd) fun _ s₂ hlog₂ => ?_
    refine ⟨new, hlog₂.trans hlog₁, henum.once, ?_, ?_⟩
    · exact fun x hx => isParentPath_trans hsub (henum.below x hx)
    · intro hok
      rcases hok with hok | hok
      · exact absurd hfail.1 (Int.not_lt.mpr hok)
      · exact absurd hok hfail.2
  · rw [if_neg hfail]
    have hok : 0 ≤ r ∨ r = ERR_IGNORE := by
      by_cases hneg : r < 0
      · exact Or.inr (not_not.mp fun hne => hfail ⟨hneg, hne⟩)
      · exact Or.inl (by omega)
    obtain ⟨n₁, hn₁, hsame⟩ := hresult.grows hok hn
    have hmore := hnext s₁ n₁ (seen ++ new) hresult.inv hn₁ (hsame.wd.trans hwd)
      (hsame.path.trans hpath) henum.once (henum.nodes hok) (hunread.walked henum.below)
      (by rw [List.length_append]; omega)
    refine wp_weaken hmore fun r' s' hr' => WalkedOnce.after hsub henum ?_
    rw [← hlog₁]
    exact hr'

/-- The loop of {lit}`walk_tree` ends and enumerates no inode twice, given that the recursive
call does so. -/
theorem wp_walkEntries_once {room : Nat}
    {walk : Bytes → Option Nat → Notifier InotifyKernel Int}
    (hwalk : WalksOnce fs policy capacity room walk) (path : Bytes) (wd a : Nat) :
    ∀ (fuel : Nat) (dir : EntryStream) (s : State InotifyKernel) (n : WatchNode)
      (seen : List (Bytes × Nat)), Inv (staticView fs policy capacity) s →
      s.heap.get a = some n → n.wd = wd → n.path = path → EnumeratedOnce fs seen →
      HasNodes s seen → Unread path seen dir.rest → dir.rest.length < fuel →
      fs.directories.card + fs.longest + 2 ≤ seen.length + room →
      wp (fun _ => False) (walkEntries (staticOs fs policy) walk fuel dir path wd)
        (WalkedOnce fs (dir.note s.os.enumerated) seen path) s := by
  intro fuel
  induction fuel with
  | zero =>
      intro dir s n seen _ _ _ _ _ _ _ hfuel _
      exact absurd hfuel (Nat.not_lt_zero _)
  | succ fuel ih =>
      intro dir s n seen h hn hwd hpath honce hnodes hunread hfuel hroom
      unfold walkEntries
      rw [wp_bind, wp_sys]
      have h₁ := h.look (.readdir dir) trivial
      cases hrest : dir.rest with
      | nil =>
          have hans : (staticOs fs policy (.readdir dir) s.os).1 = none := by
            simp [staticOs, hrest]
          rw [hans]
          exact .of_none rfl honce fun _ => hnodes
      | cons entry rest =>
          have hans : (staticOs fs policy (.readdir dir) s.os).1 = some (entry, dir.next) := by
            simp [staticOs, hrest]
          rw [hans]
          dsimp only
          rw [hrest] at hunread hfuel
          have hnext : dir.next.rest = rest := by
            simp [EntryStream.next, hrest]
          have hlt : dir.next.rest.length < fuel := by
            rw [hnext]
            exact Nat.lt_of_succ_lt_succ hfuel
          -- the loop goes on without this entry
          have hskip : ∀ o, Inv (staticView fs policy capacity) { s with os := o } →
              o.enumerated = dir.note s.os.enumerated →
              wp (fun _ => False) (walkEntries (staticOs fs policy) walk fuel dir.next path wd)
                (WalkedOnce fs (dir.note s.os.enumerated) seen path) { s with os := o } := by
            intro o ho hlog
            have hrun := ih dir.next { s with os := o } n seen ho hn hwd hpath honce hnodes
              (by rw [hnext]; exact hunread.tail) hlt hroom
            rw [← hlog]
            exact hrun
          by_cases hdot : entry.name = cstr "." ∨ entry.name = cstr ".."
          · rw [if_pos hdot]
            exact hskip _ h₁ rfl
          · rw [if_neg hdot, wp_bind]
            -- the walk into the subdirectory and what follows it
            have henter : ∀ o, Inv (staticView fs policy capacity) { s with os := o } →
                o.enumerated = dir.note s.os.enumerated →
                wp (fun _ => False) (do
                    let subdirId ← walk (path ++ slash :: entry.name) (← tableGet wd)
                    if subdirId < 0 ∧ subdirId ≠ ERR_IGNORE then do
                      rmWatch (staticOs fs policy) wd true
                      pure subdirId
                    else
                      walkEntries (staticOs fs policy) walk fuel dir.next path wd)
                  (WalkedOnce fs (dir.note s.os.enumerated) seen path) { s with os := o } := by
              intro o ho hlog
              have hgo := wp_enterEntry_once hwalk ho hn hwd hpath honce hnodes hunread hroom
                fun s' n' seen' h' hn' hwd' hpath' honce' hnodes' hunread' hroom' =>
                  ih dir.next s' n' seen' h' hn' hwd' hpath' honce' hnodes'
                    (by rw [hnext]; exact hunread') hlt hroom'
              rw [← hlog]
              exact hgo
            unfold entryIsDir
            cases htype : entry.type with
            | other => exact hskip _ h₁ rfl
            | DT_DIR => exact henter _ h₁ rfl
            | DT_UNKNOWN =>
                dsimp only
                rw [wp_bind, wp_sys]
                have h₂ := h₁.look (.stat (path ++ slash :: entry.name)) trivial
                split
                · exact henter _ h₂ rfl
                · exact hskip _ h₂ rfl

/-! ## The walk -/

/-- The entries of a directory that was opened fit into what the walk has left. -/
theorem StaticFs.length_entries_le {path : Bytes} {inode : Nat}
    (hlookup : fs.lookup path = .ok (.dir, inode)) : (fs.entries inode).length ≤ fs.longest :=
  Finset.le_sup (f := fun i => (fs.entries i).length) (fs.mem_directories hlookup)

/-- {lit}`walk_tree` ends and enumerates no inode twice.  Every directory it goes into is one
more of finitely many, and its inode is new because the node of an old one has another path. -/
theorem wp_walkTree_once (mounts : List Bytes) :
    ∀ (fuel : Nat) (path : Bytes) (parent : Option Nat) (s : State InotifyKernel)
      (seen : List (Bytes × Nat)), Inv (staticView fs policy capacity) s →
      ParentAbove s.heap parent path → EnumeratedOnce fs seen → HasNodes s seen →
      Apart path seen → fs.directories.card + fs.longest + 2 ≤ seen.length + fuel →
      wp (fun _ => False) (walkTree (staticOs fs policy) fuel path parent true mounts)
        (WalkedOnce fs s.os.enumerated seen path) s := by
  intro fuel
  induction fuel with
  | zero =>
      intro path parent s seen _ _ honce _ _ hfuel
      have hle := honce.length_le
      omega
  | succ fuel ih =>
      intro path parent s seen h hp honce hnodes hapart hfuel
      unfold walkTree
      by_cases hmount : (mounts.any fun mount => mount.isPrefixOf path) = true
      · rw [if_pos hmount]
        exact .of_none rfl honce fun _ => hnodes
      · rw [if_neg hmount, if_neg (by simp), wp_bind, wp_sys]
        have h₁ := h.look (.opendir path) trivial
        have hopened : (staticOs fs policy (.opendir path) s.os).2.enumerated =
            s.os.enumerated := staticOs_enumerated _ (by simp) _
        cases hans : (staticOs fs policy (.opendir path) s.os).1 with
        | error e =>
            dsimp only
            split
            · exact .of_none hopened honce fun _ => hnodes
            · exact .of_none hopened honce fun _ => hnodes
        | ok dir =>
            dsimp only
            rw [wp_bind]
            refine wp_weaken (wp_and (wp_addWatch_enumerated h₁ hp)
              (wp_addWatch_inv h₁ hp true : wp fuelOnly _ _ _)) fun id s₁ hid => ?_
            obtain ⟨hadded, hresult⟩ := hid
            have hlog : s₁.os.enumerated = s.os.enumerated := hadded.trans hopened
            by_cases hneg : id < 0
            · rw [if_pos hneg]
              exact .of_none hlog honce fun hok => hnodes.grows (hresult.grows hok)
            · rw [if_neg hneg]
              obtain ⟨inode, hlookup, rfl⟩ := staticOs_opendir hans
              have hnonneg : 0 ≤ id := Int.not_lt.mp hneg
              obtain ⟨a, n, hn, rfl, hpath⟩ := hresult.found hnonneg
              have hnodes₁ : HasNodes s₁ seen := hnodes.grows (hresult.grows (Or.inl hnonneg))
              have hnew : inode ∉ seen.map Prod.snd :=
                hresult.inv.inode_new honce hnodes₁ hapart hlookup hn hpath
              have honce' := honce.snoc hlookup hnew
              have hle := honce'.length_le
              have hentries := fs.length_entries_le hlookup
              rw [List.length_append, List.length_singleton] at hle
              -- nothing enumerated so far lies below an entry of this directory
              have hunread : Unread path (seen ++ [(path, inode)]) (fs.entries inode) := by
                refine ⟨fs.names_nodup inode, fun e he => fs.not_slash he, ?_⟩
                exact fun entry _ => hapart.snoc entry.name inode
              have hwalk : WalksOnce fs policy capacity fuel
                  (fun subPath node => walkTree (staticOs fs policy) fuel subPath node true
                    mounts) := by
                intro sub parent' s' seen' h' hp' honce₁ hnodes' hapart' hroom
                exact wp_weaken (wp_and (ih sub parent' s' seen' h' hp' honce₁ hnodes' hapart'
                  hroom) (wp_walkTree fuel sub parent' true mounts s' h' hp'))
                  fun r t hr => ⟨hr.2, hr.1⟩
              have hloop := wp_walkEntries_once hwalk path n.wd a fuel
                ⟨path, inode, false, fs.entries inode⟩ s₁ n (seen ++ [(path, inode)])
                hresult.inv hn rfl hpath honce' (hnodes₁.snoc hn hpath) hunread
                (by dsimp only; omega) (by rw [List.length_append, List.length_singleton]; omega)
              refine wp_weaken hloop fun r s' hr => ?_
              obtain ⟨new, hlog', henum⟩ := hr
              refine ⟨(path, inode) :: new, ?_, ?_, ?_, ?_⟩
              · rw [hlog']
                unfold EntryStream.note
                rw [if_neg (by simp), hlog, List.append_assoc]
                rfl
              · have hassoc := henum.once
                rw [List.append_assoc] at hassoc
                exact hassoc
              · intro x hx
                rcases List.mem_cons.mp hx with rfl | hx
                · exact isParentPath_refl path
                · exact henum.below x hx
              · intro hok
                have hassoc := henum.nodes hok
                rw [List.append_assoc] at hassoc
                exact hassoc

end Walk

/-! ## Every walk of a session -/

/-- The states in which the notifier may call {lit}`walk_tree`: between two turns of the main
loop, or after any of the things the turns are made of. -/
inductive BetweenWalks {σ δ : Type} (os : Os σ δ) (init : State σ) : State σ → Prop
  | turn {s : State σ} : Reachable os init s → BetweenWalks os init s
  | looked {s : State σ} (c : SysCall δ) : c.Looks → BetweenWalks os init s →
      BetweenWalks os init { s with os := (os c s.os).2 }
  | noted {s : State σ} (roots : List WatchRoot) (limit : Bool) (out : Bytes) :
      BetweenWalks os init s →
      BetweenWalks os init { s with roots := roots, limitReached := limit, stdout := out }
  | watched {s s' : State σ} (fuel : Nat) (root : Bytes) (mounts : List Bytes) (r : Int) :
      BetweenWalks os init s → (watch os fuel root mounts).run s = .ok (r, s') →
      BetweenWalks os init s'
  | unwatched {s s' : State σ} (id : Int) : BetweenWalks os init s →
      (unwatch os id).run s = .ok ((), s') → BetweenWalks os init s'
  | handled {s s' : State σ} (fuel a : Nat) (n : WatchNode) (event : InotifyEvent) (ok : Bool) :
      BetweenWalks os init s → s.heap.get a = some n → SingleType event.mask →
      (processDirEvent os fuel a (eventPath n event) event.mask).run s = .ok (ok, s') →
      BetweenWalks os init s'

theorem BetweenWalks.inv {σ δ : Type} {os : Os σ δ} {capacity : Nat} {K : KernelView os capacity}
    {init s : State σ} (hs : BetweenWalks os init s) (hinit : Good K init)
    (hsingle : SingleEvents os) : Inv K s := by
  induction hs with
  | turn hreach => exact (hreach.good hinit hsingle).inv
  | looked c hc _ ih => exact ih.look c hc
  | noted roots limit out _ ih => exact ih.frame roots limit out
  | watched fuel root mounts r _ hrun ih =>
      have hwatch := run_of_wp (wp_watch ih) hrun
      exact hwatch.inv
  | unwatched id _ hrun ih =>
      have hunwatch : wp fuelOnly (unwatch os id) _ _ := wp_unwatch ih id
      exact (run_of_wp hunwatch hrun).1.inv
  | handled fuel a n event ok _ hn hmask hrun ih =>
      have hevent := run_of_wp (wp_processDirEvent ih hn (isParentPath_eventPath n event)
        hmask.not_contradictory) hrun
      exact hevent.inv

/-- Where nothing changes, every walk ends, whatever links there are, however the calls are
denied and whatever was watched before; it reads the entries of no inode twice, and leaves no
two nodes for one inode.  Descriptors that share a slot do no harm: the walk gives up. -/
theorem walk_ends_and_enumerates_once (fs : StaticFs) (policy : KernelPolicy) {watchCount : Nat}
    (hpos : 0 < watchCount) {kernel : InotifyKernel} {s : State InotifyKernel}
    (hs : BetweenWalks (staticOs fs policy) (start kernel watchCount hpos) s) {path : Bytes}
    {parent : Option Nat} (hp : ParentAbove s.heap parent path) (recursive : Bool)
    (mounts : List Bytes) {fuel : Nat} (hfuel : fs.directories.card + fs.longest + 2 ≤ fuel) :
    ∃ r s' new, (walkTree (staticOs fs policy) fuel path parent recursive mounts).run s =
        .ok (r, s') ∧
      s'.os.enumerated = s.os.enumerated ++ new ∧ (new.map Prod.snd).Nodup ∧
      OneNodePerInode fs s' := by
  have hinv : Inv (staticView fs policy watchCount) s :=
    hs.inv (good_start hpos fun _ hw => hw) staticOs_singleEvents
  have hwalk : wp (fun _ => False)
      (walkTree (staticOs fs policy) fuel path parent recursive mounts)
      (WalkedOnce fs s.os.enumerated [] path) s := by
    cases recursive with
    | true =>
        exact wp_walkTree_once mounts fuel path parent s [] hinv hp .nil (by simp [HasNodes])
          (by simp [Apart]) (by simpa using hfuel)
    | false =>
        obtain ⟨fuel, rfl⟩ : ∃ k, fuel = k + 1 := ⟨fuel - 1, by omega⟩
        unfold walkTree
        split
        · exact .of_none rfl .nil fun _ => by simp [HasNodes]
        · rw [if_pos (by simp)]
          exact wp_weaken (wp_addWatch_enumerated hinv hp) fun r s' hlog =>
            .of_none hlog .nil fun _ => by simp [HasNodes]
  have hboth := wp_and hwalk (wp_walkTree fuel path parent recursive mounts s hinv hp)
  obtain ⟨r, s', hrun, ⟨new, hlog, henum⟩, hresult⟩ := exists_run_of_wp hboth
  exact ⟨r, s', new, hrun, hlog, henum.once.nodup, hresult.inv.oneNodePerInode⟩

/-! ## A directory with links back to itself -/

/-- In {lit}`/r` there is a link {lit}`loop` to {lit}`/r` and a directory {lit}`sub`, and in that a
link {lit}`up` to {lit}`/r`.  The types of the links are not reported. -/
def linkedFs : StaticFs where
  lookup path :=
    if path = cstr "/r" ∨ (cstr "/loop").isSuffixOf path ∨ (cstr "/up").isSuffixOf path then
      .ok (.dir, 1)
    else if (cstr "/sub").isSuffixOf path then
      .ok (.dir, 2)
    else
      .error .ENOENT
  realpath _ := some (cstr "/r")
  entries inode :=
    if inode = 1 then
      [⟨cstr ".", .DT_DIR⟩, ⟨cstr "loop", .DT_UNKNOWN⟩, ⟨cstr "sub", .DT_DIR⟩]
    else if inode = 2 then
      [⟨cstr "up", .DT_UNKNOWN⟩]
    else
      []
  mounts := some []
  directories := {1, 2}
  mem_directories := by
    intro path inode hlookup
    split at hlookup
    · cases hlookup
      decide
    · split at hlookup
      · cases hlookup
        decide
      · contradiction
  names_nodup := by
    intro inode
    split
    · decide
    · split <;> decide
  not_slash := by
    intro inode entry hentry
    split at hentry
    · revert entry
      decide
    · split at hentry
      · revert entry
        decide
      · contradiction

/-- Nothing is denied, and every new watch gets a new descriptor. -/
def openPolicy : KernelPolicy where
  denyOpen _ _ := none
  denyAdd _ _ := none
  allocate kernel := kernel.calls
  events _ := .ok []
  single := by
    intro kernel delivered hdelivered
    cases hdelivered
    simp

/-- Nothing is watched yet. -/
def unusedKernel : InotifyKernel where
  wdOf _ := none
  enumerated := []
  calls := 0

/-- The walk from {lit}`/r` reads two directories and does not follow the links. -/
theorem walk_ends_and_enumerates_once_linked :
    ∃ s', (walkTree (staticOs linkedFs openPolicy) 7 (cstr "/r") none true []).run
        (start unusedKernel 64 (by decide)) = .ok (1, s') ∧
      s'.os.enumerated = [(cstr "/r", 1), (cstr "/r/sub", 2)] ∧ OneNodePerInode linkedFs s' := by
  have hcheck : returned ((walkTree (staticOs linkedFs openPolicy) 7 (cstr "/r") none true
      []).run (start unusedKernel 64 (by decide))) 1 (fun s =>
        decide (s.os.enumerated = [(cstr "/r", 1), (cstr "/r/sub", 2)])) = true := by
    decide +kernel
  obtain ⟨s', hrun, hlog⟩ := exists_of_returned hcheck
  have hstart : BetweenWalks (staticOs linkedFs openPolicy) (start unusedKernel 64 (by decide))
      (start unusedKernel 64 (by decide)) := .turn .start
  have habove : ParentAbove (start unusedKernel 64 (by decide)).heap none (cstr "/r") := by
    intro p hp
    cases hp
  have hfuel : linkedFs.directories.card + linkedFs.longest + 2 ≤ 7 := by
    decide
  obtain ⟨r, t, new, hrun', -, -, hone⟩ := walk_ends_and_enumerates_once linkedFs openPolicy
    (by decide) hstart habove true [] hfuel
  rw [hrun] at hrun'
  cases hrun'
  exact ⟨s', hrun, of_decide_eq_true hlog, hone⟩

end FsNotifier
end IdeMultiarch
