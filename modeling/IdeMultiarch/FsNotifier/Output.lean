import IdeMultiarch.FsNotifier.Frames
import IdeMultiarch.FsNotifier.Input

/-!
# fsnotifier - the output of a process

Everything a process writes to its standard output are the frames of what it reports.  The path
of an event is masked, so that it stays on its line.  The path of a mount is not, and a mount with
a newline in its path breaks the frame that lists it.

Main results:

- Theorem {lit}`registerRoots_lists`: what is listed as unwatchable.
- Theorem {lit}`LoggedSession.written`: the output of a session.
- Theorem {lit}`output_decodable_iff`: when the output of a process can be read back.
- Theorem {lit}`broken_mount_misread`: a mount inside a root that is read as two paths.
-/

namespace IdeMultiarch
namespace FsNotifier

open Library

variable {σ δ : Type}

/-! ## Processes -/

/-- Names of files and directories of mounts are C strings. -/
structure CStrings (os : Os σ δ) : Prop where
  readdir : ∀ dir o entry dir', (os (.readdir dir) o).1 = some (entry, dir') → 0 ∉ entry.name
  read : ∀ o events, (os .read o).1 = .ok events → ∀ event ∈ events, ∀ name,
    event.name = some name → 0 ∉ name
  getmntent : ∀ o entries, (os .getmntent o).1 = some entries → ∀ ent ∈ entries, 0 ∉ ent.dir

/-- The roots of every command have been read from the standard input. -/
def CommandsRead (log : List Report) : Prop :=
  ∀ newRoots, Report.updating newRoots ∈ log →
    ∃ stream stream', readInput.run stream = .ok (.updateRoots newRoots, stream')

def EMFILE : Errno :=
  .other 24

/-- What {lit}`init_inotify` reports when it fails: {lit}`inotify_init` answers with an error, or
there is no watch count. -/
def initFailureLogged (error : Option Errno) : Notifier σ (List Report) :=
  if error = some EMFILE then do
    message (cstr "inotify.instance.limit")
    pure [.message (cstr "inotify.instance.limit")]
  else
    pure []

/-- {lit}`main` after {lit}`init_inotify` has failed, with its reports. -/
def giveUpLogged (error : Option Errno) : Notifier σ (List Report) := do
  let reports ← initFailureLogged error
  output (cstr "GIVEUP")
  pure (reports ++ [.gaveUp])

/-- The states between two turns of the main loop and at the end of {lit}`main`, with everything
reported so far.  Where {lit}`init_inotify` fails, the watch table is never looked at. -/
inductive Process (os : Os σ δ) (o : σ) : List Report → State σ → Prop
  | gaveUp {log : List Report} {s : State σ} {watchCount : Nat} (h : 0 < watchCount)
      (error : Option Errno) : (giveUpLogged error).run (start o watchCount h) = .ok (log, s) →
      Process os o log s
  | running {log : List Report} {s : State σ} {watchCount : Nat} (h : 0 < watchCount) :
      LoggedSession os (start o watchCount h) log s → CommandsRead log → Process os o log s
  | ended {log : List Report} {s s' : State σ} {watchCount : Nat} (h : 0 < watchCount) :
      LoggedSession os (start o watchCount h) log s → CommandsRead log →
      (unregisterRoots os).run s = .ok ((), s') → Process os o log s'

/-! ## Mounts that are listed -/

/-- The mounts that {lit}`register_roots` lists for a root: those inside it, up to a mount that
covers it. -/
def listedMounts (unflattened : Bytes) (mounts : List Bytes) : List Bytes :=
  (mounts.takeWhile fun mount => !isParentPath mount unflattened).filter fun mount =>
    isParentPath unflattened mount

/-- No mount that was listed for a root has a newline in its path. -/
def MountsAreLines (log : List Report) : Prop :=
  ∀ newRoots mounts, Report.registered newRoots mounts ∈ log → ∀ newRoot ∈ newRoots,
    (unflatten newRoot).head? = some slash →
      ∀ mount ∈ listedMounts (unflatten newRoot) mounts, newline ∉ mount

/-- The paths that the mount check finds unwatchable are the listed mounts, and perhaps the
root itself. -/
theorem checkMounts_lists {Q : Bytes → Prop} {unflattened : Bytes} (hQ : Q unflattened)
    (mounts : List Bytes) :
    (∀ path ∈ (checkMounts unflattened mounts).unwatchable, Q path) ↔
      ∀ mount ∈ listedMounts unflattened mounts, Q mount := by
  induction mounts with
  | nil => simp [checkMounts, listedMounts]
  | cons mount mounts ih =>
      unfold checkMounts
      cases hcover : isParentPath mount unflattened with
      | true => simp [listedMounts, hcover, hQ]
      | false =>
          cases hinner : isParentPath unflattened mount with
          | true => simpa [listedMounts, hcover, hinner] using fun _ => ih
          | false => simpa [listedMounts, hcover, hinner] using ih

/-- What {lit}`register_roots` lists: mounts, and roots. -/
theorem registerRoots_lists (os : Os σ δ) (fuel : Nat) (mounts : List Bytes) (Q : Bytes → Prop)
    {newRoots : List Bytes}
    (hQ : ∀ newRoot ∈ newRoots, (unflatten newRoot).head? = some slash → Q (unflatten newRoot)) :
    ∀ unwatchable s, wp (fun _ => True) (registerRoots os fuel mounts newRoots unwatchable)
      (fun r _ => r.1 = true → ((∀ path ∈ r.2, Q path) ↔ (∀ path ∈ unwatchable, Q path) ∧
        ∀ newRoot ∈ newRoots, (unflatten newRoot).head? = some slash →
          ∀ mount ∈ listedMounts (unflatten newRoot) mounts, Q mount)) s := by
  induction newRoots with
  | nil =>
      intro unwatchable s
      unfold registerRoots
      simp
  | cons newRoot newRoots ih =>
      intro unwatchable s
      obtain ⟨hnew, hrest⟩ := List.forall_mem_cons.mp hQ
      unfold registerRoots
      dsimp only
      split
      · rename_i hrelative
        refine wp_weaken (ih hrest unwatchable s) fun r _ hr hdone => ?_
        rw [hr hdone, List.forall_mem_cons]
        simp [hrelative]
      · rename_i habsolute
        have hroot := hnew (not_not.mp habsolute)
        have hcheck := checkMounts_lists hroot mounts
        have hgo : ∀ more, (∀ path ∈ more, Q path) → ∀ s₁,
            wp (fun _ => True) (registerRoots os fuel mounts newRoots
              (unwatchable ++ (checkMounts (unflatten newRoot) mounts).unwatchable ++ more))
              (fun r _ => r.1 = true → ((∀ path ∈ r.2, Q path) ↔ (∀ path ∈ unwatchable, Q path) ∧
                ∀ root ∈ newRoot :: newRoots, (unflatten root).head? = some slash →
                  ∀ mount ∈ listedMounts (unflatten root) mounts, Q mount)) s₁ := by
          intro more hmore s₁
          refine wp_weaken (ih hrest _ s₁) fun r _ hr hdone => ?_
          rw [hr hdone, List.forall_mem_cons, List.forall_mem_append, List.forall_mem_append, hcheck]
          simp only [not_not.mp habsolute, true_implies, and_assoc, iff_true_intro hmore, true_and]
        have hsame := hgo [] (by simp)
        simp only [List.append_nil] at hsame
        split
        · exact hsame s
        · rw [wp_bind]
          refine wp_of_all (fun id s₁ => ?_) s
          split
          · rw [wp_bind]
            exact hsame _
          · split
            · simp
            · split
              · exact hgo [unflatten newRoot] (by simpa using hroot) s₁
              · exact hsame s₁

/-! ## Paths without NUL bytes -/

/-- No path that may be reported contains a NUL byte. -/
structure State.Clean (s : State σ) : Prop where
  nodes : ∀ a n, s.heap.get a = some n → 0 ∉ n.path
  roots : ∀ root ∈ s.roots, 0 ∉ root.path

theorem unflatten_subset (root : Bytes) : unflatten root ⊆ root := by
  unfold unflatten splitRoot
  split
  · exact (List.tail_sublist root).subset
  · exact fun _ hb => hb

theorem rootPath_subset (root : Bytes) : rootPath root ⊆ root := by
  unfold rootPath
  dsimp only
  split
  · exact fun _ hb => unflatten_subset root (List.dropLast_subset _ hb)
  · exact unflatten_subset root

/-- The message about the watch limit, as it is written. -/
theorem encode_limitReport :
    encode (framesOf (limitReport false true)) = limitMessage := by
  decide

/-- Nothing is written in between. -/
def Silent (s t : State σ) : Prop :=
  (s.Clean → t.Clean) ∧ t.limitReached = s.limitReached ∧ t.stdout = s.stdout

/-- At most the message about the watch limit is written in between. -/
def Says (s t : State σ) : Prop :=
  (s.Clean → t.Clean) ∧ (s.limitReached = true → t.limitReached = true) ∧
    t.stdout = s.stdout ++ encode (framesOf (limitReport s.limitReached t.limitReached))

/-- Nodes that keep their paths stay clean. -/
theorem State.Clean.forest {s : State σ} (h : s.Clean) {watches : Table} {heap : Heap WatchNode}
    (hkeeps : KeepsPaths s heap) : State.Clean { s with watches := watches, heap := heap } := by
  refine ⟨fun b n' hn' => ?_, h.roots⟩
  obtain ⟨n, hn, hpath⟩ := hkeeps b n' hn'
  rw [hpath]
  exact h.nodes b n hn

theorem silent_forestOrder (os : Os σ δ) : ForestOrder os Silent where
  refl _ := ⟨id, rfl, rfl⟩
  trans _ _ _ hst htu := ⟨htu.1 ∘ hst.1, htu.2.1.trans hst.2.1, htu.2.2.trans hst.2.2⟩
  call _ _ := ⟨fun h => ⟨h.nodes, h.roots⟩, rfl, rfl⟩
  forest _ _ _ hkeeps := ⟨fun h => h.forest hkeeps, rfl, rfl⟩

theorem says_of_silent {s t : State σ} (h : Silent s t) : Says s t := by
  obtain ⟨hclean, hlimit, hstdout⟩ := h
  refine ⟨hclean, fun hs => hlimit.trans hs, ?_⟩
  rw [hlimit, hstdout]
  cases s.limitReached <;> simp [limitReport, framesOf]

theorem says_stepOrder {os : Os σ δ} (hos : CStrings os) :
    StepOrder os (fun path => 0 ∉ path) Says where
  refl s := says_of_silent ((silent_forestOrder os).refl s)
  trans s t u hst htu := by
    obtain ⟨hclean, hlimit, hstdout⟩ := hst
    obtain ⟨hclean', hlimit', hstdout'⟩ := htu
    refine ⟨hclean' ∘ hclean, hlimit' ∘ hlimit, ?_⟩
    rw [hstdout', hstdout]
    cases hs : s.limitReached <;> cases ht : t.limitReached <;> cases hu : u.limitReached <;>
      simp_all [limitReport, framesOf]
  call c s := says_of_silent ((silent_forestOrder os).call c s)
  forest s watches heap h := says_of_silent ((silent_forestOrder os).forest s watches heap h)
  alloc s node hnode := by
    refine says_of_silent ⟨fun h => ⟨fun a n hn => ?_, h.roots⟩, rfl, rfl⟩
    rw [Heap.alloc_get] at hn
    split at hn
    · cases hn
      exact hnode
    · exact h.nodes a n hn
  entry path dir o entry dir' hpath hans := by
    have hname := hos.readdir dir o entry dir' hans
    have hslash : ¬ (0 : UInt8) = slash := by decide
    simp [hpath, hname, hslash]
  limit s hs := by
    refine ⟨fun h => ⟨h.nodes, h.roots⟩, fun _ => rfl, ?_⟩
    rw [hs, encode_limitReport]

/-! ## What is written -/

/-- A report whose frames cannot be misread, whatever the mounts are. -/
def Report.Plain : Report → Prop
  | .event _ path => 0 ∉ path
  | .appeared _ _ path => 0 ∉ path
  | .disappeared _ path => 0 ∉ path
  | .message text => newline ∉ text
  | .registered _ _ => False
  | .unwatchable _ => False
  | _ => True

theorem Report.Plain.frames {report : Report} (h : report.Plain) :
    ∀ frame ∈ report.frames, frame.Readable ∧ frame.OnLines := by
  intro frame hframe
  rw [Frame.onLines_iff]
  cases report with
  | updating newRoots => simp [Report.frames] at hframe
  | registered newRoots mounts => exact absurd h id
  | event word path =>
      rw [List.mem_singleton.mp hframe]
      exact ⟨h, trivial⟩
  | appeared i id path =>
      rcases List.mem_pair.mp hframe with rfl | rfl
      · exact ⟨h, trivial⟩
      · exact ⟨h, trivial⟩
  | disappeared i path =>
      rw [List.mem_singleton.mp hframe]
      exact ⟨h, trivial⟩
  | reset =>
      rw [List.mem_singleton.mp hframe]
      exact ⟨trivial, trivial⟩
  | message text =>
      rw [List.mem_singleton.mp hframe]
      exact ⟨trivial, h⟩
  | unwatchable paths => exact absurd h id
  | gaveUp =>
      rw [List.mem_singleton.mp hframe]
      exact ⟨trivial, trivial⟩

/-- What holds of the log so far and the state: the output are the frames of the log, and
whether the lines of the frames are broken depends on the mounts. -/
structure Written (log : List Report) (s : State σ) : Prop where
  stdout : s.stdout = encode (framesOf log)
  clean : s.Clean
  readable : ∀ frame ∈ framesOf log, frame.Readable
  onLines : (∀ frame ∈ framesOf log, frame.OnLines) ↔ MountsAreLines log

theorem mountsAreLines_append {log reports : List Report} :
    MountsAreLines (log ++ reports) ↔ MountsAreLines log ∧ MountsAreLines reports := by
  unfold MountsAreLines
  simp only [List.mem_append, or_imp, forall_and]

/-- More reports are written. -/
theorem Written.append {log reports : List Report} {s t : State σ} (h : Written log s)
    (hstdout : t.stdout = s.stdout ++ encode (framesOf reports)) (hclean : t.Clean)
    (hreadable : ∀ frame ∈ framesOf reports, frame.Readable)
    (honLines : (∀ frame ∈ framesOf reports, frame.OnLines) ↔ MountsAreLines reports) :
    Written (log ++ reports) t := by
  refine ⟨?_, hclean, ?_, ?_⟩
  · rw [hstdout, h.stdout, framesOf_append, encode_append]
  · rw [framesOf_append, List.forall_mem_append]
    exact ⟨h.readable, hreadable⟩
  · rw [framesOf_append, List.forall_mem_append, mountsAreLines_append, h.onLines, honLines]

theorem frames_of_plain {reports : List Report} (hplain : ∀ report ∈ reports, report.Plain) :
    ∀ frame ∈ framesOf reports, frame.Readable ∧ frame.OnLines := by
  intro frame hframe
  obtain ⟨report, hreport, hmem⟩ := List.mem_flatMap.mp hframe
  exact (hplain report hreport).frames frame hmem

/-- More reports are written, and none of them lists mounts. -/
theorem Written.plain {log reports : List Report} {s t : State σ} (h : Written log s)
    (hstdout : t.stdout = s.stdout ++ encode (framesOf reports)) (hclean : t.Clean)
    (hplain : ∀ report ∈ reports, report.Plain) : Written (log ++ reports) t := by
  have hframes := frames_of_plain hplain
  refine h.append hstdout hclean (fun frame hframe => (hframes frame hframe).1) ?_
  refine iff_of_true (fun frame hframe => (hframes frame hframe).2) ?_
  intro newRoots mounts hregistered
  exact absurd (hplain _ hregistered) id

theorem Written.silent {log : List Report} {s t : State σ} (h : Written log s)
    (hsilent : Silent s t) : Written (log ++ []) t := by
  obtain ⟨hclean, -, hstdout⟩ := hsilent
  exact h.plain (by simp [hstdout, framesOf]) (hclean h.clean) (by simp)

theorem limitReport_plain (before after : Bool) :
    ∀ report ∈ limitReport before after, report.Plain := by
  intro report hmem
  unfold limitReport at hmem
  split at hmem
  · rw [List.mem_singleton.mp hmem]
    have htext : newline ∉ cstr "inotify.watch.limit" := by decide
    exact htext
  · contradiction

/-- The message about the watch limit is written. -/
theorem Written.limit {log : List Report} {s t : State σ} (h : Written log s) (hwrites : Says s t) :
    Written (log ++ limitReport s.limitReached t.limitReached) t := by
  obtain ⟨hclean, -, hstdout⟩ := hwrites
  exact h.plain hstdout (hclean h.clean) (limitReport_plain _ _)

/-! ## What one turn writes -/

/-- The reports of {lit}`inotify_callback` before it looks for a removed root are written. -/
theorem wp_reportMask_frames {tol : Fault → Prop} (path : Bytes) (mask : UInt32) (s : State σ)
    {Q : Unit → State σ → Prop}
    (hQ : Q () { s with stdout := s.stdout ++ encode (framesOf (maskReports path mask)) }) :
    wp tol (reportMask path mask) Q s := by
  unfold reportMask
  unfold maskReports at hQ
  split at hQ
  · rw [if_pos ‹_›]
    simpa [framesOf, Report.frames, encode, Frame.lines, EventWord.text] using hQ
  · rw [if_neg ‹_›]
    split at hQ
    · rw [if_pos ‹_›]
      simpa [framesOf, Report.frames, encode, Frame.lines, EventWord.text] using hQ
    · rw [if_neg ‹_›]
      split at hQ
      · rw [if_pos ‹_›]
        simpa [framesOf, Report.frames, encode, Frame.lines, EventWord.text] using hQ
      · rw [if_neg ‹_›]
        split at hQ
        · rw [if_pos ‹_›]
          simpa [framesOf, Report.frames, encode, Frame.lines, EventWord.text] using hQ
        · rw [if_neg ‹_›]
          simpa [framesOf] using hQ

theorem maskReports_plain {path : Bytes} (hpath : 0 ∉ path) (mask : UInt32) :
    ∀ report ∈ maskReports path mask, report.Plain := by
  have hall : ∀ words : List EventWord,
      ∀ report ∈ words.map fun word => Report.event word path, report.Plain := by
    intro words report hmem
    obtain ⟨word, -, rfl⟩ := List.mem_map.mp hmem
    exact hpath
  unfold maskReports
  split
  · exact hall [.CREATE, .CHANGE]
  · split
    · exact hall [.CHANGE]
    · split
      · exact hall [.STATS]
      · split
        · exact hall [.DELETE]
        · exact hall []

/-- Recording an answer of {lit}`watch` keeps the paths of the roots. -/
theorem State.Clean.setRoot {s : State σ} (h : s.Clean) {i : Nat} {root : WatchRoot}
    (hroot : 0 ∉ root.path) (id : Int) (out : Bytes) :
    State.Clean { s with roots := s.roots.set i { root with id := id }, stdout := out } := by
  refine ⟨h.nodes, fun root' hmem => ?_⟩
  rcases List.mem_or_eq_of_mem_set hmem with hmem | rfl
  · exact h.roots root' hmem
  · exact hroot

section Turns

variable {os : Os σ δ}

/-- One round of {lit}`check_missing_roots`. -/
theorem written_checkMissingRootAt (hos : CStrings os) (fuel i : Nat) (log : List Report)
    (s : State σ) (h : Written log s) :
    wp (fun _ => True) (checkMissingRootAtLogged os fuel i)
      (fun reports t => Written (log ++ reports) t) s := by
  have hquiet := h.silent ((silent_forestOrder os).refl s)
  unfold checkMissingRootAtLogged
  rw [wp_bind, wp_get]
  cases hroot : s.roots[i]? with
  | none => exact hquiet
  | some root =>
      have hpath : 0 ∉ root.path := h.clean.roots root (List.mem_of_getElem? hroot)
      have hunflat : 0 ∉ unflatten root.path := fun hmem => hpath (unflatten_subset _ hmem)
      have htop : 0 ∉ rootPath root.path := fun hmem => hpath (rootPath_subset _ hmem)
      dsimp only
      split
      · rw [wp_bind, wp_sys]
        have hcall := (silent_forestOrder os).call (.stat (unflatten root.path)) s
        cases (os (.stat (unflatten root.path)) s.os).1 with
        | error e => exact h.silent hcall
        | ok type =>
            dsimp only
            rw [wp_bind, wp_noteLimit]
            have h₁ := h.silent hcall
            rw [List.append_nil] at h₁
            refine wp_weaken ((respects_watch (says_stepOrder hos) fuel htop []).wp _)
              fun id t ht => ?_
            have h₂ := h₁.limit ht
            rw [wp_bind, wp_modify, wp_bind, wp_reportEvent, wp_bind, wp_reportEvent, wp_pure,
              ← List.append_assoc]
            refine h₂.plain ?_ (h₂.clean.setRoot hpath id _) ?_
            · simp [framesOf, Report.frames, encode, Frame.lines, EventWord.text]
            · intro report hmem
              rw [List.mem_singleton.mp hmem]
              exact hunflat
      · exact hquiet

/-- One round of {lit}`check_root_removal`. -/
theorem written_checkRootRemovalAt {path : Bytes} (hpath : 0 ∉ path) (i : Nat)
    (log : List Report) (s : State σ) (h : Written log s) :
    wp (fun _ => True) (checkRootRemovalAtLogged os path i)
      (fun reports t => Written (log ++ reports) t) s := by
  have hquiet := h.silent ((silent_forestOrder os).refl s)
  unfold checkRootRemovalAtLogged
  rw [wp_bind, wp_get]
  cases hroot : s.roots[i]? with
  | none => exact hquiet
  | some root =>
      have hclean : 0 ∉ root.path := h.clean.roots root (List.mem_of_getElem? hroot)
      dsimp only
      split
      · rw [wp_bind]
        refine wp_weaken ((respects_rmWatch (silent_forestOrder os) root.id true).wp s)
          fun _ t ht => ?_
        have h₁ := h.silent ht
        rw [List.append_nil] at h₁
        rw [wp_bind, wp_modify, wp_bind, wp_reportEvent, wp_pure]
        refine h₁.plain ?_ (h₁.clean.setRoot hclean (-1) _) ?_
        · simp [framesOf, Report.frames, encode, Frame.lines, EventWord.text]
        · intro report hmem
          rw [List.mem_singleton.mp hmem]
          exact hpath
      · exact hquiet

/-- {lit}`inotify_callback` -/
theorem written_inotifyCallback {path : Bytes} (hpath : 0 ∉ path) (mask : UInt32)
    (log : List Report) (s : State σ) (h : Written log s) :
    wp (fun _ => True) (inotifyCallbackLogged os path mask)
      (fun reports t => Written (log ++ reports) t) s := by
  unfold inotifyCallbackLogged
  rw [wp_bind]
  apply wp_reportMask_frames
  have hmask : Written (log ++ maskReports path mask)
      { s with stdout := s.stdout ++ encode (framesOf (maskReports path mask)) } :=
    h.plain rfl ⟨h.clean.nodes, h.clean.roots⟩ (maskReports_plain hpath mask)
  split
  · unfold checkRootRemovalLogged
    rw [wp_bind, wp_bind, wp_get]
    refine wp_weaken (wp_collect (written_checkRootRemovalAt hpath) _ _ _ hmask)
      fun reports t ht => ?_
    rw [wp_pure, ← List.append_assoc]
    exact ht
  · split
    · rw [wp_bind, wp_output, wp_pure, ← List.append_assoc]
      refine hmask.plain ?_ ⟨h.clean.nodes, h.clean.roots⟩ ?_
      · simp [framesOf, Report.frames, encode, Frame.lines]
      · intro report hmem
        rw [List.mem_singleton.mp hmem]
        trivial
    · exact hmask

/-- One event. -/
theorem written_processInotifyEvent (hos : CStrings os) (fuel : Nat) {event : InotifyEvent}
    (hname : ∀ name, event.name = some name → 0 ∉ name) (log : List Report) (s : State σ)
    (h : Written log s) :
    wp (fun _ => True) (processInotifyEventLogged os fuel event)
      (fun r t => Written (log ++ r.2) t) s := by
  unfold processInotifyEventLogged
  rw [wp_bind, wp_tableGet]
  cases s.watches.get event.wd with
  | none => exact h.silent ((silent_forestOrder os).refl s)
  | some a =>
      dsimp only
      rw [wp_bind]
      cases hn : s.heap.get a with
      | none =>
          unfold deref
          rw [wp_bind, wp_get, hn]
          trivial
      | some node =>
          rw [wp_deref hn]
          have hpath : 0 ∉ eventPath node event := by
            have hnode := h.clean.nodes a node hn
            unfold eventPath
            cases hev : event.name with
            | none => exact hnode
            | some name =>
                have hslash : ¬ (0 : UInt8) = slash := by decide
                simp [hnode, hname name hev, hslash]
          rw [wp_bind]
          refine wp_weaken (written_inotifyCallback hpath event.mask log s h) fun reports s₁ h₁ => ?_
          split
          · rw [wp_bind, wp_noteLimit]
            refine wp_weaken ((respects_processDirEvent (says_stepOrder hos) fuel a hpath _).wp s₁)
              fun ok s₂ h₂ => ?_
            rw [wp_pure, ← List.append_assoc]
            exact h₁.limit h₂
          · exact h₁

/-- {lit}`unregister_roots` writes nothing. -/
theorem silent_unregisterRoots (os : Os σ δ) : Respects Silent (unregisterRoots os) := by
  refine respects_unregisterRoots (silent_forestOrder os) fun s => ⟨fun h => ?_, rfl, rfl⟩
  exact ⟨h.nodes, fun root hmem => h.roots root (List.dropLast_subset _ hmem)⟩

/-- Writing a list of paths. -/
theorem wp_forM_output {tol : Fault → Prop} (paths : List Bytes) :
    ∀ s : State σ, wp tol (paths.forM output)
      (fun _ t => t = { s with stdout := s.stdout ++ unlines newline paths }) s := by
  induction paths with
  | nil =>
      intro s
      change s = _
      rw [unlines_nil, List.append_nil]
  | cons path paths ih =>
      intro s
      rw [List.forM_eq_forM, List.forM_cons, wp_bind, wp_output]
      refine wp_weaken (ih _) fun _ t ht => ?_
      rw [ht, unlines_cons]
      simp

/-- Roots whose texts are lines are neither taken for a hash sign nor broken. -/
theorem unflatten_line {root : Bytes} (htext : LineText root)
    (habsolute : (unflatten root).head? = some slash) :
    newline ∉ unflatten root ∧ unflatten root ≠ cstr "#" ∧ 0 ∉ unflatten root := by
  refine ⟨fun h => htext.1 (unflatten_subset _ h), ?_, fun h => htext.2 (unflatten_subset _ h)⟩
  intro hhash
  rw [hhash] at habsolute
  exact absurd habsolute (by decide)

/-- A mount that is listed begins with the slash of the root. -/
theorem listedMounts_readable {unflattened : Bytes} (habsolute : unflattened.head? = some slash)
    {mounts : List Bytes} (hmounts : ∀ mount ∈ mounts, 0 ∉ mount) :
    ∀ mount ∈ listedMounts unflattened mounts, mount ≠ cstr "#" ∧ 0 ∉ mount := by
  intro mount hmem
  obtain ⟨hmem, hinner⟩ := List.mem_filter.mp hmem
  refine ⟨?_, hmounts mount (List.takeWhile_subset _ hmem)⟩
  rintro rfl
  obtain ⟨b, rest, rfl⟩ : ∃ b rest, unflattened = b :: rest := by
    cases unflattened with
    | nil => contradiction
    | cons b rest => exact ⟨b, rest, rfl⟩
  cases habsolute
  rw [isParentPath_iff] at hinner
  rcases hinner with heq | ⟨_, heq⟩
  · exact absurd (List.cons.inj heq).1 (by decide)
  · exact absurd (List.cons.inj heq).1 (by decide)

/-- The directories of unwatchable mounts are C strings. -/
theorem wp_unwatchableMounts (hos : CStrings os) (s : State σ) :
    wp (fun _ => True) (unwatchableMounts os) (fun mounts t => Silent s t ∧
      ∀ ms, mounts = some ms → ∀ mount ∈ ms, 0 ∉ mount) s := by
  have hcall := (silent_forestOrder os).call .getmntent s
  unfold unwatchableMounts
  rw [wp_bind, wp_sys]
  cases hans : (os .getmntent s.os).1 with
  | none => exact ⟨hcall, fun _ h => by cases h⟩
  | some entries =>
      refine ⟨hcall, fun ms hms => ?_⟩
      cases hms
      intro mount hmem
      obtain ⟨ent, hent, rfl⟩ := List.mem_map.mp hmem
      exact hos.getmntent _ _ hans ent (List.mem_of_mem_filter hent)

/-- {lit}`register_roots` writes at most the message about the watch limit. -/
theorem says_registerRoots (hos : CStrings os) (fuel : Nat) (mounts : List Bytes)
    {newRoots : List Bytes} (htexts : ∀ newRoot ∈ newRoots, LineText newRoot) :
    Respects Says (registerRoots os fuel mounts newRoots []) := by
  refine respects_registerRoots (says_stepOrder hos) fuel mounts newRoots ?_ ?_ []
  · exact fun newRoot hmem h => (htexts newRoot hmem).2 (rootPath_subset _ h)
  · intro newRoot hmem id s
    refine says_of_silent ⟨fun h => ⟨h.nodes, ?_⟩, rfl, rfl⟩
    intro root hroot
    rcases List.mem_append.mp hroot with hroot | hroot
    · exact h.roots root hroot
    · rw [List.mem_singleton.mp hroot]
      exact (htexts newRoot hmem).2

/-- The mounts of a command that has been answered. -/
theorem mountsAreLines_registered (newRoots mounts unwatchable : List Bytes) (before after : Bool) :
    MountsAreLines (.updating newRoots :: .registered newRoots mounts ::
      (limitReport before after ++ [.unwatchable unwatchable])) ↔
      ∀ newRoot ∈ newRoots, (unflatten newRoot).head? = some slash →
        ∀ mount ∈ listedMounts (unflatten newRoot) mounts, newline ∉ mount := by
  constructor
  · intro h
    exact h newRoots mounts (by simp)
  · intro h newRoots' mounts' hmem
    rcases List.mem_cons.mp hmem with heq | hmem
    · cases heq
    rcases List.mem_cons.mp hmem with heq | hmem
    · cases heq
      exact h
    rcases List.mem_append.mp hmem with hmem | hmem
    · exact absurd (limitReport_plain before after _ hmem) id
    · cases List.mem_singleton.mp hmem

/-- {lit}`update_roots` -/
theorem written_updateRoots (hos : CStrings os) (fuel : Nat)
    {newRoots : List Bytes} (htexts : ∀ newRoot ∈ newRoots, LineText newRoot)
    (log : List Report) (s : State σ) (h : Written log s) :
    wp (fun _ => True) (updateRootsLogged os fuel newRoots)
      (fun r t => Written (log ++ r.2) t) s := by
  unfold updateRootsLogged
  rw [wp_bind]
  refine wp_weaken ((silent_unregisterRoots os).wp s) fun _ s₁ hs₁ => ?_
  have h₁ := h.silent hs₁
  rw [List.append_nil] at h₁
  split
  · rw [wp_bind, wp_output, wp_pure]
    refine h₁.append ?_ ⟨h₁.clean.nodes, h₁.clean.roots⟩ ?_ ?_
    · simp [framesOf, Report.frames, encode, Frame.lines, cstr, newline]
    · simp [framesOf, Report.frames, Frame.Readable]
    · simp [framesOf, Report.frames, Frame.onLines_iff, MountsAreLines]
  · split
    · rw [wp_bind, wp_output, wp_pure]
      refine h₁.append ?_ ⟨h₁.clean.nodes, h₁.clean.roots⟩ ?_ ?_
      · simp [framesOf, Report.frames, encode, Frame.lines, cstr, newline]
      · simp [framesOf, Report.frames, Frame.Readable, cstr]
      · simp [framesOf, Report.frames, Frame.onLines_iff, MountsAreLines, cstr, newline]
    · rw [wp_bind]
      refine wp_weaken (wp_unwatchableMounts hos s₁) fun mounts s₂ hs₂ => ?_
      obtain ⟨hsilent, hmounts⟩ := hs₂
      have h₂ := h₁.silent hsilent
      rw [List.append_nil] at h₂
      cases mounts with
      | none => exact h₂.plain (by simp [framesOf, Report.frames]) h₂.clean (by simp [Report.Plain])
      | some mounts =>
          dsimp only
          rw [wp_bind, wp_noteLimit]
          have hwrites := (says_registerRoots hos fuel mounts htexts).wp s₂
          have hreadable := registerRoots_lists os fuel mounts
            (fun path => path ≠ cstr "#" ∧ 0 ∉ path)
            (fun root hmem habs => (unflatten_line (htexts root hmem) habs).2) [] s₂
          have hlines := registerRoots_lists os fuel mounts (newline ∉ ·)
            (fun root hmem habs => (unflatten_line (htexts root hmem) habs).1) [] s₂
          refine wp_weaken (wp_and hwrites (wp_and hreadable hlines)) fun r s₃ hs₃ => ?_
          obtain ⟨⟨hclean, hmore, hstdout⟩, hreadable, hlines⟩ := hs₃
          obtain ⟨registered, unwatchable⟩ := r
          have hsaid := frames_of_plain (limitReport_plain s₂.limitReached s₃.limitReached)
          cases registered with
          | false =>
              refine h₂.plain ?_ (hclean h₂.clean) ?_
              · simpa [framesOf, Report.frames] using hstdout
              · rw [List.forall_mem_cons]
                exact ⟨trivial, limitReport_plain _ _⟩
          | true =>
              have hreadable := (hreadable rfl).mpr ⟨by simp, fun root _ habs =>
                listedMounts_readable habs (hmounts mounts rfl)⟩
              dsimp only
              rw [if_neg (by simp), wp_bind, wp_output, wp_bind]
              refine wp_weaken (wp_forM_output unwatchable _) fun _ t ht => ?_
              rw [wp_bind, wp_output, wp_pure, ht]
              have hframes : framesOf (.updating newRoots :: .registered newRoots mounts ::
                  (limitReport s₂.limitReached s₃.limitReached ++ [.unwatchable unwatchable])) =
                  framesOf (limitReport s₂.limitReached s₃.limitReached) ++
                    [.unwatchable unwatchable] := by
                simp [framesOf, Report.frames]
              have hclean₃ := hclean h₂.clean
              refine h₂.append ?_ ⟨hclean₃.nodes, hclean₃.roots⟩ ?_ ?_
              · rw [hframes, encode_append, hstdout]
                simp [encode, Frame.lines]
              · rw [hframes, List.forall_mem_append]
                exact ⟨fun frame hmem => (hsaid frame hmem).1, by simpa [Frame.Readable] using hreadable⟩
              · have honLines := hlines rfl
                rw [hframes, List.forall_mem_append, mountsAreLines_registered,
                  List.forall_mem_singleton, Frame.onLines_iff,
                  and_iff_right fun frame hmem => (hsaid frame hmem).2]
                simpa using honLines

/-- One turn of the main loop, provided that a command has been read. -/
theorem written_performLogged (hos : CStrings os) (fuel : Nat) (action : Action)
    (log : List Report) (s : State σ) (h : Written log s) :
    wp (fun _ => True) (performLogged os fuel action)
      (fun r t => CommandsRead r.2 → Written (log ++ r.2) t) s := by
  cases action with
  | updateRoots newRoots =>
      by_cases htexts : ∀ newRoot ∈ newRoots, LineText newRoot
      · exact wp_weaken (written_updateRoots hos fuel htexts log s h) fun r t ht _ => ht
      · refine wp_weaken (wp_updateRootsLogged os fuel newRoots s) fun r t hr hread => ?_
        obtain ⟨answers, hreports, -⟩ := hr
        obtain ⟨stream, stream', hinput⟩ := hread newRoots (by simp [hreports])
        exact absurd (readInput_lineText hinput) htexts
  | inotifyInput =>
      unfold performLogged
      rw [wp_bind, wp_sys]
      have hcall := (silent_forestOrder os).call .read s
      cases hans : (os .read s.os).1 with
      | error e => exact fun _ => h.silent hcall
      | ok events =>
          have h₁ := h.silent hcall
          rw [List.append_nil] at h₁
          have hnames := hos.read _ _ hans
          refine wp_weaken (wp_processEventsLogged (fun event hmem =>
            written_processInotifyEvent hos fuel (hnames event hmem)) log _ h₁) fun r t ht _ => ht
  | missingRootTick =>
      unfold performLogged checkMissingRootsLogged
      rw [wp_bind, wp_bind, wp_get]
      refine wp_weaken (wp_collect (written_checkMissingRootAt hos fuel) _ log s h) fun r t ht => ?_
      exact fun _ => ht

end Turns

/-! ## What a process writes -/

theorem commandsRead_append {log reports : List Report} (h : CommandsRead (log ++ reports)) :
    CommandsRead log ∧ CommandsRead reports :=
  ⟨fun newRoots hmem => h newRoots (List.mem_append_left _ hmem),
    fun newRoots hmem => h newRoots (List.mem_append_right _ hmem)⟩

theorem written_start (o : σ) (watchCount : Nat) (h : 0 < watchCount) :
    Written [] (start o watchCount h) where
  stdout := rfl
  clean := ⟨fun a n hn => by contradiction, fun root hmem => by contradiction⟩
  readable := by simp [framesOf]
  onLines := by simp [framesOf, MountsAreLines]

/-- The output of a session. -/
theorem LoggedSession.written {os : Os σ δ} (hos : CStrings os) {init s : State σ}
    (hinit : Written [] init) {log : List Report} (hs : LoggedSession os init log s)
    (hread : CommandsRead log) : Written log s := by
  refine hs.keeps (J := fun log s => CommandsRead log → Written log s) (fun _ => hinit) ?_ hread
  intro fuel action log s h
  by_cases hlog : CommandsRead log
  · refine wp_weaken (written_performLogged hos fuel action log s (h hlog)) fun r t ht hall => ?_
    exact ht (commandsRead_append hall).2
  · exact wp_of_all (fun r t hall => absurd (commandsRead_append hall).1 hlog) s

/-- A process that gives up says so. -/
theorem written_giveUp (error : Option Errno) {s : State σ} (h : Written [] s) :
    wp (fun _ => True) (giveUpLogged error) Written s := by
  have hinit : wp (fun _ => True) (initFailureLogged error) Written s := by
    unfold initFailureLogged message
    split
    · rw [wp_bind, wp_bind, wp_output, wp_output, wp_pure, ← List.nil_append [_]]
      refine h.plain ?_ ⟨h.clean.nodes, h.clean.roots⟩ ?_
      · simp [framesOf, Report.frames, encode, Frame.lines]
      · have htext : newline ∉ cstr "inotify.instance.limit" := by decide
        simpa [Report.Plain] using htext
    · exact h
  unfold giveUpLogged
  rw [wp_bind]
  refine wp_weaken hinit fun reports t ht => ?_
  rw [wp_bind, wp_output, wp_pure]
  refine ht.plain ?_ ⟨ht.clean.nodes, ht.clean.roots⟩ ?_
  · simp [framesOf, Report.frames, encode, Frame.lines]
  · simp [Report.Plain]

theorem Process.written {os : Os σ δ} (hos : CStrings os) {o : σ} {log : List Report}
    {s : State σ} (hs : Process os o log s) : Written log s := by
  cases hs with
  | gaveUp h error hrun => exact run_of_wp (written_giveUp error (written_start o _ h)) hrun
  | running h hsession hread => exact hsession.written hos (written_start o _ h) hread
  | ended h hsession hread hrun =>
      have hlast := (hsession.written hos (written_start o _ h) hread).silent
        (silent_unregisterRoots os _ _ _ hrun)
      rw [List.append_nil] at hlast
      exact hlast

/-- Whatever a process has written are the frames of its reports, and a reader recovers them
if and only if no mount that was listed for a root has a newline in its path. -/
theorem output_decodable_iff {os : Os σ δ} (hos : CStrings os) {o : σ} {log : List Report}
    {s : State σ} (hs : Process os o log s) :
    s.stdout = encode (framesOf log) ∧
      (decode s.stdout = some (framesOf log) ↔ MountsAreLines log) := by
  have hwritten := hs.written hos
  refine ⟨hwritten.stdout, ?_⟩
  rw [hwritten.stdout, decode_encode_iff hwritten.readable]
  exact hwritten.onLines

/-! ## Mounts inside a root -/

/-- A system in which nothing changes: every directory is empty, the mount table is given, and in
every buffer of events a file with a newline in its name is modified. -/
def constantOs (entries : List Mntent) : Os Unit Unit
  | .inotifyAddWatch _, o => (.ok 1, o)
  | .inotifyRmWatch _, o => (.ok (), o)
  | .opendir _, o => (.ok (), o)
  | .readdir _, o => (none, o)
  | .stat _, o => (.ok .dir, o)
  | .realpath path, o => (some path, o)
  | .read, o => (.ok [⟨1, IN_MODIFY, some (cstr "a\nb")⟩], o)
  | .getmntent, o => (some entries, o)

theorem constantOs_cStrings {entries : List Mntent} (hentries : ∀ ent ∈ entries, 0 ∉ ent.dir) :
    CStrings (constantOs entries) where
  readdir _ _ _ _ h := by cases h
  read _ _ h event hmem name hname := by
    cases h
    rw [List.mem_singleton.mp hmem] at hname
    cases hname
    decide
  getmntent _ _ h ent hmem := by
    cases h
    exact hentries ent hmem

/-- The command with the root {lit}`/r`. -/
theorem rootCommand_read : readInput.run ⟨rootsCommand [cstr "/r"] [], false⟩ =
    .ok (.updateRoots [cstr "/r"], ⟨[], false⟩) := by
  decide +kernel

/-- What is reported when {lit}`/r` is registered and a file in it is modified. -/
def modifiedLog : List Report :=
  [.updating [cstr "/r"], .registered [cstr "/r"] [], .unwatchable [],
    .event .CHANGE (cstr "/r/a\nb")]

/-- A file with a newline in its name is reported, and read back. -/
theorem output_decodable_iff_modified :
    ∃ s, Process (constantOs []) () modifiedLog s ∧
      decode s.stdout = some [.unwatchable [], .event .CHANGE (cstr "/r/a\nb")] := by
  have hcheck : returned ((performLogged (constantOs []) 5 (.updateRoots [cstr "/r"])).run
      (start () 8 (by decide))) (true, modifiedLog.take 3)
      (fun s₁ => returned ((performLogged (constantOs []) 5 .inotifyInput).run s₁)
        (true, modifiedLog.drop 3) (fun _ => true)) = true := by
    decide +kernel
  obtain ⟨s₁, hrun₁, hcheck⟩ := exists_of_returned hcheck
  obtain ⟨s₂, hrun₂, -⟩ := exists_of_returned hcheck
  have hs := (LoggedSession.start.turn _ _ _ hrun₁).turn _ _ _ hrun₂
  rw [List.nil_append, List.take_append_drop] at hs
  have hread : CommandsRead modifiedLog := by
    intro newRoots hmem
    simp [modifiedLog] at hmem
    exact hmem ▸ ⟨_, _, rootCommand_read⟩
  have hprocess := Process.running _ hs hread
  refine ⟨s₂, hprocess, ?_⟩
  have hos : CStrings (constantOs []) := constantOs_cStrings (by simp)
  have hlines : MountsAreLines modifiedLog := by
    intro newRoots mounts hmem newRoot _ _
    simp [modifiedLog] at hmem
    simp [hmem.2, listedMounts]
  exact (output_decodable_iff hos hprocess).2.mpr hlines

/-- The directory of a mount inside {lit}`/r`, with a newline in its name. -/
def brokenMount : Bytes :=
  cstr "/r/a\nb"

/-- What is reported when {lit}`/r` is registered with that mount. -/
def brokenLog : List Report :=
  [.updating [cstr "/r"], .registered [cstr "/r"] [brokenMount], .unwatchable [brokenMount]]

/-- The mount is written on two lines, and read back as two paths. -/
theorem broken_mount_misread :
    ∃ s, CStrings (constantOs [⟨brokenMount, cstr "nfs"⟩]) ∧
      Process (constantOs [⟨brokenMount, cstr "nfs"⟩]) () brokenLog s ∧
      s.stdout = cstr "UNWATCHEABLE\n/r/a\nb\n#\n" ∧
      framesOf brokenLog = [.unwatchable [brokenMount]] ∧
      decode s.stdout = some [.unwatchable [cstr "/r/a", cstr "b"]] ∧
      decode s.stdout ≠ some (framesOf brokenLog) := by
  have hcheck : returned ((performLogged (constantOs [⟨brokenMount, cstr "nfs"⟩]) 5
      (.updateRoots [cstr "/r"])).run (start () 8 (by decide))) (true, brokenLog)
      (fun s => s.stdout == cstr "UNWATCHEABLE\n/r/a\nb\n#\n") = true := by
    decide +kernel
  obtain ⟨s, hrun, hstdout⟩ := exists_of_returned hcheck
  have hs := LoggedSession.start.turn _ _ _ hrun
  rw [List.nil_append] at hs
  have hread : CommandsRead brokenLog := by
    intro newRoots hmem
    simp [brokenLog] at hmem
    exact hmem ▸ ⟨_, _, rootCommand_read⟩
  have hos : CStrings (constantOs [⟨brokenMount, cstr "nfs"⟩]) :=
    constantOs_cStrings (by decide)
  rw [beq_iff_eq] at hstdout
  refine ⟨s, hos, .running _ hs hread, hstdout, rfl, ?_, ?_⟩
  · rw [hstdout]
    decide +kernel
  · rw [hstdout]
    decide +kernel

end FsNotifier
end IdeMultiarch
