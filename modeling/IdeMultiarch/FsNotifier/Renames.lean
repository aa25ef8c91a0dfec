import IdeMultiarch.FsNotifier.Consistency

/-!
# fsnotifier - renames and the end of the main loop

When the processing of events can make the main loop end.  {lit}`add_watch` gives up when the
kernel answers with a descriptor that the table has under another path.  That happens
when a directory is moved and a walk that an earlier event has started meets it in its new
place, before the event about the move is processed.

Main results:

- Definition {lit}`gentleView`: the view of a kernel whose only fatal error is {lit}`ENOTDIR`.
- Theorem {lit}`move_into_created_directory_stops`: a move into a directory that was just
  created ends it.
-/

namespace IdeMultiarch
namespace FsNotifier

open Library

/-! ## What ends the main loop -/

/-- Calls are denied with {lit}`ENOENT`, {lit}`EACCES` and {lit}`ENOTDIR` only. -/
def DeniesGently (script : Nat → Turn) : Prop :=
  ∀ t e, (script t).deny = some e → e = .ENOENT ∨ e = .EACCES ∨ e = .ENOTDIR

/-- Errors of {lit}`inotify_add_watch` are denials, or the path does not exist. -/
theorem worldOs_addWatch_error {script : Nat → Turn} (hdeny : DeniesGently script)
    {path : Bytes} {w : World} {e : Errno}
    (hans : (worldOs script (.inotifyAddWatch path) w).1 = .error e) :
    e = .ENOENT ∨ e = .EACCES ∨ e = .ENOTDIR := by
  unfold worldOs World.answer World.addWatch World.answerAdd at hans
  dsimp only at hans
  split at hans
  · rename_i e' hturn
    cases hans
    exact hdeny w.time e hturn
  · cases hans
    exact Or.inl rfl
  · split at hans
    · contradiction
    · contradiction

/-- Where calls are denied gently, {lit}`ENOTDIR` is the only fatal error. -/
def gentleView (script : Nat → Turn) (hdeny : DeniesGently script) (capacity : Nat) :
    KernelView (worldOs script) capacity :=
  { worldView script capacity with
    refused := fun w => ∃ call ∈ w.log, call.failed (· = .ENOTDIR) = true
    refused_add := by
      intro w path e hans he₁ he₂ _
      obtain ⟨hlog, -, -⟩ := worldOs_addWatch script path w
      rcases worldOs_addWatch_error hdeny hans with rfl | rfl | rfl
      · exact absurd rfl he₂
      · exact absurd rfl he₁
      · refine ⟨_, hlog, ?_⟩
        unfold AddCall.failed
        rw [hans]
        rfl
    refused_mono := by
      intro c w ⟨call, hcall, h⟩
      obtain ⟨calls, hlog⟩ := worldOs_log script c w
      exact ⟨call, hlog ▸ List.mem_append_left _ hcall, h⟩ }

/-! ## A world with two directories -/

/-- A world with the directories {lit}`/r` and {lit}`/r/a`. -/
def twoDirectories : World where
  dirs := [⟨[], 1⟩, ⟨[cstr "r"], 2⟩, ⟨[cstr "r", cstr "a"], 3⟩]
  nextInode := 4
  mounts := []
  watches := []
  listed := fun _ => []
  nextWd := 1
  queue := []
  delivered := none
  held := []
  log := []
  changes := []
  time := 0

/-- Other processes do these things just before call number {lit}`t`, and nothing else. -/
def scriptAt (t : Nat) (ops : List FsOp) : Nat → Turn :=
  fun t' => if t' = t then { Turn.quiet with ops := ops } else Turn.quiet

/-- Before the first buffer of events is read, {lit}`/r/n` is created and {lit}`/r/a` is moved
into it. -/
def moveIntoCreated : Nat → Turn :=
  scriptAt 9 [.mkdir [cstr "r"] (cstr "n"),
    .rename [cstr "r"] (cstr "a") [cstr "r", cstr "n"] (cstr "a") true]

theorem scriptAt_gentle (t : Nat) (ops : List FsOp) : DeniesGently (scriptAt t ops) := by
  intro t' e he
  unfold scriptAt at he
  split at he <;> contradiction

/-! ## A move that ends the main loop -/

/-- The walk that the creation starts meets the moved directory, whose descriptor the table
still has under the old path, and the main loop ends.  No call was denied and no
descriptors clash. -/
theorem move_into_created_directory_stops :
    DeniesGently moveIntoCreated ∧
    ∃ s s', Reachable (worldOs moveIntoCreated) (start twoDirectories 8 (by decide)) s ∧
      s.roots = [⟨cstr "/r", 1⟩] ∧
      (perform (worldOs moveIntoCreated) 9 .inotifyInput).run s = .ok (false, s') ∧
      ∀ call ∈ s'.os.log, call.clashes 8 = false := by
  have hregister : returned ((perform (worldOs moveIntoCreated) 9
      (.updateRoots [cstr "/r"])).run (start twoDirectories 8 (by decide))) true
      (fun s => s.roots = [⟨cstr "/r", 1⟩] ∧ returned ((perform (worldOs moveIntoCreated) 9
        .inotifyInput).run s) false
        (fun s' => s'.os.log.all fun call => !call.clashes 8) = true) = true := by
    decide +kernel
  obtain ⟨s, hrun, htest⟩ := exists_of_returned hregister
  obtain ⟨hroots, hinput⟩ := of_decide_eq_true htest
  obtain ⟨s', hrun', hclash⟩ := exists_of_returned hinput
  refine ⟨scriptAt_gentle _ _, s, s', .turn _ _ _ .start hrun, hroots, hrun', ?_⟩
  intro call hcall
  simpa using List.all_eq_true.mp hclash call hcall

end FsNotifier
end IdeMultiarch
