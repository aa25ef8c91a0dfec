import IdeMultiarch.Launcher.JavaVmRuns

/-!
# Launcher - what the virtual machine prints while it starts

While the machine is created, what it prints is collected.  The end of the creation decides whether
that is dropped or shown to the user.

Main results:

- Theorem {lit}`Collected.run`: the messages are kept in their order, and nothing is printed.
- Theorem {lit}`OnItsWay.run`: an error of the creation reaches the user.
- Theorem {lit}`creation_messages`: what becomes of the messages of the machine.
-/

namespace IdeMultiarch
namespace Launcher
namespace Process

variable {launch : JvmLaunch} {p q : Process} {answer : Answer} {action : Action}
variable {actions : List Action}

/-! ## Messages -/

/-- The messages of the machine, in the order in which they got the lock. -/
def texts (actions : List Action) : List Bytes :=
  actions.filterMap fun
    | .hook text => some text
    | _ => none

theorem texts_cons (action : Action) (actions : List Action) :
    texts (action :: actions) = texts [action] ++ texts actions := by
  cases action <;> rfl

theorem texts_append (front back : List Action) : texts (front ++ back) = texts front ++ texts back :=
  List.filterMap_append

theorem mainStep_messages (hstep : p.mainStep launch answer = some q) :
    q.creations = p.creations ∧ q.printed = p.printed ∧ q.hookMessages = p.hookMessages := by
  unfold Process.mainStep showError at hstep
  grind

/-- The thread of the machine begins to collect messages before it creates the machine, and no
longer collects them when the machine was created. -/
theorem jvmStep_messages (hstep : p.jvmStep launch answer = some q) :
    q.printed = p.printed ∧
    ((∃ args, p.jvm = .hooking args ∧ q.hookMessages = some [] ∧
        q.creations = p.creations ++ [args]) ∨
      (p.jvm = .created 0 ∧ q.hookMessages = none ∧ q.creations = p.creations) ∨
      q.hookMessages = p.hookMessages ∧ q.creations = p.creations) := by
  unfold Process.jvmStep creationEnd send at hstep
  grind

/-- Only a hook changes what is printed, and only the thread of the machine decides what becomes of
messages. -/
theorem step_printed (hstep : p.step launch action = some q) :
    q.creations = p.creations ∧ q.printed = p.printed ∧ q.hookMessages = p.hookMessages ∧
      texts [action] = [] ∨
    (∃ text, action = .hook text ∧ p.creations ≠ [] ∧ q = p.vfprintfHook text) ∨
    ∃ answer, action = .jvm answer ∧ p.jvmStep launch answer = some q := by
  unfold Process.step at hstep
  split at hstep
  next => cases hstep
  next =>
    cases action with
    | main answer =>
        obtain ⟨hcreations, hprinted, hmessages⟩ := mainStep_messages hstep
        exact Or.inl ⟨hcreations, hprinted, hmessages, rfl⟩
    | jvm answer => exact Or.inr (Or.inr ⟨answer, rfl, hstep⟩)
    | hook text =>
        dsimp only at hstep
        split at hstep
        next hhooked =>
          cases hstep
          exact Or.inr (Or.inl ⟨text, rfl, hhooked.1, rfl⟩)
        next => cases hstep
    | abort =>
        dsimp only at hstep
        split at hstep
        next =>
          cases hstep
          left
          unfold Process.abortHook
          dsimp only
          split <;> exact ⟨rfl, rfl, rfl, rfl⟩
        next => cases hstep
    | closed =>
        dsimp only at hstep
        split at hstep
        next =>
          cases hstep
          exact Or.inl ⟨rfl, rfl, rfl, rfl⟩
        next => cases hstep
    | machineExit code =>
        dsimp only at hstep
        split at hstep
        next =>
          cases hstep
          exact Or.inl ⟨rfl, rfl, rfl, rfl⟩
        next => cases hstep

/-- All messages so far are kept while they are collected, and none is printed then. -/
structure Collected (p : Process) (written : List Bytes) : Prop where
  fresh : p.creations = [] → p.hookMessages = none ∧ p.printed = [] ∧ written = []
  kept : ∀ messages, p.hookMessages = some messages →
    messages = written.map messageOf ∧ p.printed = []

theorem collected_start : Collected start [] :=
  ⟨fun _ => ⟨rfl, rfl, rfl⟩, fun _ h => by cases h⟩

/-- A step of the thread of the machine begins or ends the collection. -/
theorem Collected.jvmStep {written : List Bytes} (h : Collected p written)
    (hprepared : Prepared launch p) (hstep : p.jvmStep launch answer = some q) :
    Collected q written := by
  obtain ⟨hprinted, hcases⟩ := jvmStep_messages hstep
  rcases hcases with ⟨args, hjvm, hmessages, hcreations⟩ | ⟨-, hmessages, hcreations⟩ |
    ⟨hmessages, hcreations⟩
  · rw [Prepared, hjvm] at hprepared
    obtain ⟨-, hnothing, hwritten⟩ := h.fresh hprepared.2.1
    constructor
    · intro hnone
      rw [hcreations] at hnone
      exact absurd hnone (List.concat_ne_nil _ _)
    · intro messages hsome
      rw [hmessages, Option.some.injEq] at hsome
      rw [← hsome, hwritten, hprinted]
      exact ⟨rfl, hnothing⟩
  · constructor
    · intro hnone
      rw [hcreations] at hnone
      rw [hmessages, hprinted]
      exact ⟨rfl, (h.fresh hnone).2⟩
    · intro messages hsome
      rw [hmessages] at hsome
      cases hsome
  · constructor
    · rw [hcreations, hmessages, hprinted]
      exact h.fresh
    · rw [hmessages, hprinted]
      exact h.kept

/-- Every step keeps the messages that are collected. -/
theorem Collected.step {written : List Bytes} (h : Collected p written) (hinv : Invariant launch p)
    (hstep : p.step launch action = some q) : Collected q (written ++ texts [action]) := by
  rcases step_printed hstep with ⟨hcreations, hprinted, hmessages, htexts⟩ |
    ⟨text, rfl, hhooked, rfl⟩ | ⟨answer, rfl, hjvm⟩
  · rw [htexts, List.append_nil]
    constructor
    · rw [hcreations, hmessages, hprinted]
      exact h.fresh
    · rw [hmessages, hprinted]
      exact h.kept
  · cases hmessages : p.hookMessages with
    | none =>
        rw [vfprintfHook_none hmessages]
        refine ⟨fun hnone => absurd hnone hhooked, fun messages hsome => ?_⟩
        rw [hmessages] at hsome
        cases hsome
    | some messages =>
        obtain ⟨hkept, hprinted⟩ := h.kept messages hmessages
        rw [vfprintfHook_some hmessages]
        refine ⟨fun hnone => absurd hnone hhooked, fun messages' hsome => ⟨?_, hprinted⟩⟩
        rw [← Option.some.inj hsome, hkept, List.map_append]
        rfl
  · have hnone : texts [.jvm answer] = [] := rfl
    rw [hnone, List.append_nil]
    exact h.jvmStep hinv.prepared hjvm

theorem Collected.run {written : List Bytes} (h : Collected p written) (hinv : Invariant launch p)
    (hrun : p.run launch actions = some q) : Collected q (written ++ texts actions) := by
  induction actions generalizing p written with
  | nil =>
      cases hrun
      have hnone : texts [] = [] := rfl
      rw [hnone, List.append_nil]
      exact h
  | cons action actions ih =>
      rw [run_cons] at hrun
      obtain ⟨p', hstep, hrest⟩ := Option.bind_eq_some_iff.mp hrun
      have hrun' := ih (h.step hinv hstep) (hinv.step hstep) hrest
      rw [texts_cons, ← List.append_assoc]
      exact hrun'

/-- Once the machine was created, its messages are printed. -/
theorem printed_step (hinv : Invariant launch p) (hcreated : p.creations ≠ [])
    (hnone : p.hookMessages = none) (hstep : p.step launch action = some q) :
    q.creations ≠ [] ∧ q.hookMessages = none ∧ q.printed = p.printed ++ texts [action] := by
  rcases step_printed hstep with ⟨hcreations, hprinted, hmessages, htexts⟩ |
    ⟨text, rfl, -, rfl⟩ | ⟨answer, rfl, hjvm⟩
  · rw [hcreations, hmessages, hprinted, htexts, List.append_nil]
    exact ⟨hcreated, hnone, rfl⟩
  · rw [vfprintfHook_none hnone]
    exact ⟨hcreated, hnone, rfl⟩
  · obtain ⟨hprinted, hcases⟩ := jvmStep_messages hjvm
    have htexts : texts [.jvm answer] = [] := rfl
    rw [hprinted, htexts, List.append_nil]
    rcases hcases with ⟨args, hhooking, -⟩ | ⟨-, hmessages, hcreations⟩ | ⟨hmessages, hcreations⟩
    · have hprepared := hinv.prepared
      rw [Prepared, hhooking] at hprepared
      exact absurd hprepared.2.1 hcreated
    · rw [hcreations]
      exact ⟨hcreated, hmessages, rfl⟩
    · rw [hcreations, hmessages]
      exact ⟨hcreated, hnone, rfl⟩

theorem printed_run (hinv : Invariant launch p) (hcreated : p.creations ≠ [])
    (hnone : p.hookMessages = none) (hrun : p.run launch actions = some q) :
    q.hookMessages = none ∧ q.printed = p.printed ++ texts actions := by
  induction actions generalizing p with
  | nil =>
      cases hrun
      exact ⟨hnone, (List.append_nil _).symm⟩
  | cons action actions ih =>
      rw [run_cons] at hrun
      obtain ⟨p', hstep, hrest⟩ := Option.bind_eq_some_iff.mp hrun
      obtain ⟨hcreated', hnone', hprinted⟩ := printed_step hinv hcreated hnone hstep
      obtain ⟨hlast, hall⟩ := ih (hinv.step hstep) hcreated' hnone' hrest
      refine ⟨hlast, ?_⟩
      rw [hall, hprinted, texts_cons action actions, List.append_assoc]

/-- The error with which the creation failed is on its way to the user. -/
def OnItsWay (launch : JvmLaunch) (error : Chain) (p : Process) : Prop :=
  p.jvm = .sending (some error) ∨
  p.jvm = .ended ∧
    (p.main = .receiving ∧ p.channel = [some error] ∨
      p.main = cannotStart error ∨
      p.main = .reported ∧ p.startReports =
        [.start (!launch.debugMode) (lit "Cannot start the runtime" :: error)])

/-- The first thread brings the error nearer to the user. -/
theorem OnItsWay.mainStep {error : Chain} (h : OnItsWay launch error p) (hinv : Invariant launch p)
    (hstep : p.mainStep launch answer = some q) : OnItsWay launch error q := by
  obtain ⟨hcoherent, -, -, -, hreported, -⟩ := hinv
  rcases h with hsending | ⟨hended, hreceiving | hfailed | hreports⟩
  · rw [hsending] at hcoherent
    obtain ⟨hmain, hchannel⟩ := hcoherent.of_starting trivial
    have hends : ¬ (p.jvm = .ended ∨ p.jvm = .panicked) := by
      rw [hsending]
      rintro (heq | heq) <;> cases heq
    unfold Process.mainStep at hstep
    rw [hmain, hchannel] at hstep
    dsimp only at hstep
    rw [if_neg hends] at hstep
    cases hstep
  · unfold Process.mainStep at hstep
    rw [hreceiving.1, hreceiving.2] at hstep
    cases hstep
    exact Or.inr ⟨hended, Or.inr (Or.inl rfl)⟩
  · have hshown : Reported launch p := hreported
    rw [Reported, hfailed] at hshown
    unfold Process.mainStep at hstep
    rw [hfailed] at hstep
    cases hstep
    refine Or.inr ⟨hended, Or.inr (Or.inr ⟨rfl, ?_⟩)⟩
    rw [startReports_showError, hshown.1]
    rfl
  · unfold Process.mainStep at hstep
    rw [hreports.1] at hstep
    cases hstep
    exact Or.inr ⟨hended, Or.inr (Or.inr ⟨rfl, hreports.2⟩)⟩

/-- The thread of the machine tells the first thread of the error. -/
theorem OnItsWay.jvmStep {error : Chain} (h : OnItsWay launch error p) (hinv : Invariant launch p)
    (hstep : p.jvmStep launch answer = some q) : OnItsWay launch error q := by
  rcases h with hsending | ⟨hended, -⟩
  · have hcoherent := hinv.coherent
    rw [hsending] at hcoherent
    obtain ⟨hmain, hchannel⟩ := hcoherent.of_starting trivial
    unfold Process.jvmStep send at hstep
    rw [hsending] at hstep
    dsimp only at hstep
    rw [if_pos hmain, hchannel] at hstep
    cases hstep
    exact Or.inr ⟨rfl, Or.inl ⟨hmain, rfl⟩⟩
  · unfold Process.jvmStep at hstep
    rw [hended] at hstep
    cases hstep

theorem OnItsWay.step {error : Chain} (h : OnItsWay launch error p) (hinv : Invariant launch p)
    (hstep : p.step launch action = some q) : OnItsWay launch error q := by
  have hmachine : (∀ answer, action ≠ .main answer) → (∀ answer, action ≠ .jvm answer) →
      OnItsWay launch error q := by
    intro hmain hjvm
    obtain ⟨hmain, hjvm, hchannel, hreports⟩ := machine_frame hstep hmain hjvm
    unfold OnItsWay
    rw [hmain, hjvm, hchannel, hreports]
    exact h
  cases action with
  | main answer =>
      unfold Process.step at hstep
      split at hstep
      next => cases hstep
      next => exact h.mainStep hinv hstep
  | jvm answer =>
      unfold Process.step at hstep
      split at hstep
      next => cases hstep
      next => exact h.jvmStep hinv hstep
  | _ => exact hmachine (fun _ heq => by cases heq) (fun _ heq => by cases heq)

theorem OnItsWay.run {error : Chain} (h : OnItsWay launch error p) (hinv : Invariant launch p)
    (hrun : p.run launch actions = some q) : OnItsWay launch error q := by
  induction actions generalizing p with
  | nil =>
      cases hrun
      exact h
  | cons action actions ih =>
      rw [run_cons] at hrun
      obtain ⟨p', hstep, hrest⟩ := Option.bind_eq_some_iff.mp hrun
      exact ih (h.step hinv hstep) (hinv.step hstep) hrest

/-- Where the thread of the machine stands then, and that the main class was not called. -/
theorem OnItsWay.notCalled {error : Chain} (h : OnItsWay launch error p)
    (hinv : Invariant launch p) :
    (p.jvm = .sending (some error) ∨ p.jvm = .ended) ∧ p.mainCalls = [] := by
  have hprepared := hinv.prepared
  rcases h with hsending | ⟨hended, -⟩
  · rw [Prepared, hsending] at hprepared
    exact ⟨Or.inl hsending, hprepared.2⟩
  · rw [Prepared, hended] at hprepared
    exact ⟨Or.inr hended, hprepared.2⟩

/-- Messages go on being collected when the creation has failed. -/
theorem OnItsWay.collects {error : Chain} (h : OnItsWay launch error p) (hinv : Invariant launch p)
    (hsome : p.hookMessages.isSome = true) (hrun : p.run launch actions = some q) :
    q.hookMessages.isSome = true := by
  induction actions generalizing p with
  | nil =>
      cases hrun
      exact hsome
  | cons action actions ih =>
      rw [run_cons] at hrun
      obtain ⟨p', hstep, hrest⟩ := Option.bind_eq_some_iff.mp hrun
      refine ih (h.step hinv hstep) (hinv.step hstep) ?_ hrest
      rcases step_printed hstep with ⟨-, -, hmessages, -⟩ | ⟨text, rfl, -, rfl⟩ |
        ⟨answer, rfl, hjvm⟩
      · rw [hmessages]
        exact hsome
      · obtain ⟨messages, hmessages⟩ := Option.isSome_iff_exists.mp hsome
        rw [vfprintfHook_some hmessages]
        rfl
      · have hplace := (h.notCalled hinv).1
        rcases (jvmStep_messages hjvm).2 with ⟨args, heq, -⟩ | ⟨heq, -⟩ | ⟨hmessages, -⟩
        · rw [heq] at hplace
          rcases hplace with heq | heq <;> cases heq
        · rw [heq] at hplace
          rcases hplace with heq | heq <;> cases heq
        · rw [hmessages]
          exact hsome

/-- The end of the creation decides about all messages. -/
theorem creation_ends {code : Int} {messages : List Str} (hjvm : p.jvm = .created code)
    (hmessages : p.hookMessages = some messages)
    (hstep : p.step launch (.jvm answer) = some q) :
    q.creations = p.creations ∧ q.printed = p.printed ∧
    (code = 0 → q.hookMessages = none) ∧
    (code ≠ 0 → q.hookMessages = some messages ∧
      OnItsWay launch [creationError code messages] q) := by
  unfold Process.step at hstep
  split at hstep
  next => cases hstep
  next =>
    dsimp only at hstep
    unfold Process.jvmStep at hstep
    rw [hjvm] at hstep
    dsimp only [creationEnd] at hstep
    rw [hmessages] at hstep
    split_ifs at hstep with hlocked hcode
    · cases hstep
      exact ⟨rfl, rfl, fun _ => rfl, fun hne => absurd hcode hne⟩
    · cases hstep
      exact ⟨rfl, rfl, fun heq => absurd heq hcode, fun _ => ⟨rfl, Or.inl rfl⟩⟩

/-- What becomes of the messages of the machine, whichever of its threads they come from.  If the
creation succeeds, those before its end are dropped, and those after it are printed, in their
order.  If it fails, those before its end are the error that the launcher shows (or the code, if
there are none), and nothing is ever printed. -/
theorem creation_messages {before later : List Action} {code : Int}
    (hbefore : start.run launch before = some p) (hcreated : p.jvm = .created code)
    (hlater : p.run launch (.jvm answer :: later) = some q) :
    (code = 0 → q.hookMessages = none ∧ q.printed = texts later) ∧
    (code ≠ 0 → q.printed = [] ∧
      q.hookMessages = some ((texts (before ++ later)).map messageOf) ∧ q.mainCalls = [] ∧
      ∀ exitCode, q.exit = some (.main exitCode) → q.startReports =
        [.start (!launch.debugMode) [lit "Cannot start the runtime",
          creationError code ((texts before).map messageOf)]]) := by
  have hinv := invariant_start.run hbefore
  have hcollected := collected_start.run invariant_start hbefore
  have hprepared := hinv.prepared
  rw [Prepared, hcreated] at hprepared
  obtain ⟨⟨args, -, honce⟩, hsome, -⟩ := hprepared
  obtain ⟨messages, hmessages⟩ := Option.isSome_iff_exists.mp hsome
  obtain ⟨hkept, hprinted⟩ := hcollected.kept messages hmessages
  rw [List.nil_append] at hkept
  rw [run_cons] at hlater
  obtain ⟨p', hstep, hrest⟩ := Option.bind_eq_some_iff.mp hlater
  obtain ⟨hcreations, hprinted', hzero, hnonzero⟩ := creation_ends hcreated hmessages hstep
  have hinv' := hinv.step hstep
  constructor
  · intro hcode
    have hhooked : p'.creations ≠ [] := by
      rw [hcreations, honce]
      exact List.cons_ne_nil _ _
    obtain ⟨hnone, hall⟩ := printed_run hinv' hhooked (hzero hcode) hrest
    rw [hprinted', hprinted, List.nil_append] at hall
    exact ⟨hnone, hall⟩
  · intro hcode
    obtain ⟨hmessages', hway⟩ := hnonzero hcode
    have hlast := hway.run hinv' hrest
    have hcollected' := (hcollected.step hinv hstep).run hinv' hrest
    have hsome' : p'.hookMessages.isSome = true := by
      rw [hmessages']
      rfl
    obtain ⟨messages', hmessagesLast⟩ :=
      Option.isSome_iff_exists.mp (hway.collects hinv' hsome' hrest)
    obtain ⟨hkeptLast, hprintedLast⟩ := hcollected'.kept messages' hmessagesLast
    have hall : [] ++ texts before ++ texts [.jvm answer] ++ texts later =
        texts (before ++ later) := by
      rw [texts_append, List.nil_append]
      exact congrArg (· ++ texts later) (List.append_nil _)
    have hinvLast := hinv'.run hrest
    refine ⟨hprintedLast, ?_, (hlast.notCalled hinvLast).2, ?_⟩
    · rw [hmessagesLast, hkeptLast, hall]
    · intro exitCode hexit
      have hexited := hinvLast.exited
      rw [Exited, hexit] at hexited
      obtain ⟨-, hmain⟩ := hexited
      rw [← hkept]
      rcases hlast with hsending | ⟨-, hreceiving | hfailed | hreports⟩
      · have hcoherent := hinvLast.coherent
        rw [hsending, hmain] at hcoherent
        cases hcoherent
      · rw [hmain] at hreceiving
        cases hreceiving.1
      · rw [hmain] at hfailed
        cases hfailed
      · exact hreports.2

/-- The machine does not know the option, and says so in two parts. -/
def smallFailure : List Action :=
  smallBegin ++ [.hook (Path.ofStr (lit "Unrecognized option: ")),
    .hook (Path.ofStr (lit "-Xbad")), .jvm (.code (-6))]

/-- The first thread shows the error, and another message comes too late. -/
def smallFailureLater : List Action :=
  [.jvm .done, .hook (Path.ofStr (lit "late")), .main .done, .main .done, .main .done]

theorem creation_messages_small :
    ∃ p, start.run smallJvmLaunch (smallFailure ++ .jvm .done :: smallFailureLater) = some p ∧
      p.startReports =
        [.start false [lit "Cannot start the runtime", lit "Unrecognized option: -Xbad"]] := by
  have hfailed : (start.run smallJvmLaunch smallFailure).any
      (fun p => decide (p.jvm = .created (-6))) = true := by
    decide +kernel
  have hdone : (start.run smallJvmLaunch (smallFailure ++ .jvm .done :: smallFailureLater)).any
      (fun p => decide (p.exit = some (.main 1))) = true := by
    decide +kernel
  obtain ⟨p, hp, hjvm⟩ := (Option.any_eq_true _ _).mp hfailed
  obtain ⟨q, hq, hexit⟩ := (Option.any_eq_true _ _).mp hdone
  have hlater := hq
  rw [run_append, hp] at hlater
  obtain ⟨-, hnonzero⟩ := creation_messages hp (of_decide_eq_true hjvm) hlater
  obtain ⟨-, -, -, hreports⟩ := hnonzero (by decide)
  refine ⟨q, hq, (hreports 1 (of_decide_eq_true hexit)).trans ?_⟩
  decide +kernel

end Process
end Launcher
end IdeMultiarch
