import IdeMultiarch.Launcher.JavaVm

/-!
# Launcher - all starts of the virtual machine

What holds of every run of the process, in whatever order its threads take their steps, whatever
their calls answer and whenever the machine calls back.

Main results:

- Theorem {lit}`start_safe`: the machine is created once and told to run the main class once, or one
  error is shown and the process ends with code 1.
- Theorem {lit}`start_progress`: the launcher is never stuck and takes few steps.
-/

namespace IdeMultiarch
namespace Launcher
namespace Process

variable {launch : JvmLaunch} {p q : Process} {answer : Answer} {action : Action}
variable {actions : List Action}

/-! ## The two threads -/

/-- The thread of the machine has not told the first thread how it went. -/
def Starting : JvmThread → Prop
  | .loading | .resolving | .arguing | .hooking _ | .creating | .created _ | .attaching
  | .sending _ => True
  | _ => False

/-- The thread of the machine is about to run the main class, or has run it. -/
def Running : JvmThread → Prop
  | .preparing | .inMain | .exiting _ => True
  | _ => False

/-- How far the two threads can be, and what is on its way between them. -/
inductive Coherent : MainThread → JvmThread → List (Option Chain) → Prop
  | resetting (signals : List Nat) : Coherent (.resetting signals) .absent []
  | spawning : Coherent .spawning .absent []
  | notSpawned (error : Chain) : Coherent (.failed error) .absent []
  | notSpawnedReported : Coherent .reported .absent []
  | starting {jvm : JvmThread} (h : Starting jvm) : Coherent .receiving jvm []
  | failing (error : Chain) : Coherent .receiving .ended [some error]
  | started {jvm : JvmThread} (h : Running jvm) : Coherent .receiving jvm [none]
  | joining {jvm : JvmThread} (h : Running jvm) : Coherent .joining jvm []
  | failed (error : Chain) : Coherent (.failed error) .ended []
  | reported : Coherent .reported .ended []

/-- The machine is created once, with all options. -/
def CreatedOnce (launch : JvmLaunch) (p : Process) : Prop :=
  ∃ args, getJvmInitArgs launch.allVmOptions = .ok args ∧ p.creations = [args]

/-- What was done for the machine, for each place where its thread can stand. -/
def Prepared (launch : JvmLaunch) (p : Process) : Prop :=
  match p.jvm with
  | .absent | .loading | .resolving | .arguing =>
      p.creations = [] ∧ p.hookMessages = none ∧ p.mainCalls = []
  | .hooking args =>
      getJvmInitArgs launch.allVmOptions = .ok args ∧ p.creations = [] ∧ p.hookMessages = none ∧
        p.mainCalls = []
  | .creating | .created _ =>
      CreatedOnce launch p ∧ p.hookMessages.isSome = true ∧ p.mainCalls = []
  | .attaching | .sending none | .preparing =>
      CreatedOnce launch p ∧ p.hookMessages = none ∧ p.mainCalls = []
  | .inMain => CreatedOnce launch p ∧ p.hookMessages = none ∧ p.mainCalls = [launch.mainCall]
  | .exiting code =>
      CreatedOnce launch p ∧ p.hookMessages = none ∧
        (code = 0 ∧ p.mainCalls = [launch.mainCall] ∨
          code = 1 ∧ (p.mainCalls = [] ∨ p.mainCalls = [launch.mainCall]))
  | .sending (some _) | .ended => (p.creations = [] ∨ CreatedOnce launch p) ∧ p.mainCalls = []
  | .panicked => False

/-- What is known of the main class where the thread of the machine stands: the process is about to
end with code 0 only when the main class has returned. -/
def Returned (p : Process) : Prop :=
  match p.jvm with
  | .exiting code => code = 0 ∧ p.mainResults = [none] ∨ code = 1 ∧ none ∉ p.mainResults
  | _ => p.mainResults = []

/-- The library is asked for once, in the runtime of the launch. -/
def Loaded (launch : JvmLaunch) (p : Process) : Prop :=
  match p.jvm with
  | .absent | .loading => p.loads = []
  | _ => p.loads = [launch.libjvmPath]

/-- The errors of the start that were shown. -/
def startReports (p : Process) : List Report :=
  p.reports.filter fun
    | .start _ _ => true
    | .abort _ _ => false

/-- The error that the first thread ends with is shown once. -/
def Reported (launch : JvmLaunch) (p : Process) : Prop :=
  match p.main with
  | .reported => ∃ error, p.startReports =
      [.start (!launch.debugMode) (lit "Cannot start the runtime" :: error)]
  | .failed error => p.startReports = [] ∧ error.head? = some (lit "Cannot start the runtime")
  | .finished => False
  | _ => p.startReports = []

/-- Who can end the process. -/
def Exited (p : Process) : Prop :=
  match p.exit with
  | some (.main code) => code = 1 ∧ p.main = .reported
  | some (.jvm code) => p.jvm = .exiting code
  | _ => True

/-- What holds of the process all the time. -/
structure Invariant (launch : JvmLaunch) (p : Process) : Prop where
  coherent : Coherent p.main p.jvm p.channel
  prepared : Prepared launch p
  returned : Returned p
  loaded : Loaded launch p
  reported : Reported launch p
  exited : Exited p

theorem invariant_start : Invariant launch start where
  coherent := .resetting signals
  prepared := ⟨rfl, rfl, rfl⟩
  returned := rfl
  loaded := rfl
  reported := rfl
  exited := trivial

/-! ## One step -/

/-- One more error is shown. -/
theorem startReports_showError (p : Process) (error : Chain) :
    (p.showError launch error).startReports =
      p.startReports ++ [.start (!launch.debugMode) error] :=
  List.filter_append ..

/-- The error that ended the start is shown. -/
theorem reported_showError {error : Chain} (hmain : p.main = .failed error)
    (h : Reported launch p) : Reported launch (p.showError launch error) := by
  unfold Reported at h
  rw [hmain] at h
  obtain ⟨hnone, hhead⟩ := h
  obtain ⟨cause, rfl⟩ := List.head?_eq_some_iff.mp hhead
  refine ⟨cause, ?_⟩
  rw [startReports_showError, hnone]
  rfl

/-- A step of the first thread. -/
theorem Invariant.mainStep (h : Invariant launch p) (hrun : p.exit = none)
    (hstep : p.mainStep launch answer = some q) : Invariant launch q := by
  obtain ⟨hcoherent, hprepared, hreturned, hloaded, hreported, -⟩ := h
  obtain ⟨main, jvm, channel, hookMessages, locked, loads, creations, mainCalls, mainResults, printed,
    reports, exit⟩ := p
  dsimp only at hcoherent hrun
  subst hrun
  unfold Process.mainStep at hstep
  dsimp only at hstep
  cases hcoherent with
  | resetting signals =>
      cases signals with
      | nil =>
          cases hstep
          exact ⟨.spawning, hprepared, hreturned, hloaded, hreported, trivial⟩
      | cons signal rest =>
          cases answer with
          | error text =>
              cases hstep
              exact ⟨.notSpawned _, hprepared, hreturned, hloaded, ⟨hreported, rfl⟩, trivial⟩
          | _ =>
              cases hstep
              exact ⟨.resetting rest, hprepared, hreturned, hloaded, hreported, trivial⟩
  | spawning =>
      cases answer with
      | error text =>
          cases hstep
          exact ⟨.notSpawned _, hprepared, hreturned, hloaded, ⟨hreported, rfl⟩, trivial⟩
      | _ =>
          cases hstep
          exact ⟨.starting trivial, hprepared, hreturned, hloaded, hreported, trivial⟩
  | notSpawned error =>
      cases hstep
      exact ⟨.notSpawnedReported, hprepared, hreturned, hloaded, reported_showError rfl hreported, trivial⟩
  | notSpawnedReported =>
      cases hstep
      exact ⟨.notSpawnedReported, hprepared, hreturned, hloaded, hreported, rfl, rfl⟩
  | starting hstarting =>
      have hends : ¬ (jvm = .ended ∨ jvm = .panicked) := by
        rintro (rfl | rfl) <;> exact hstarting
      dsimp only at hstep
      rw [if_neg hends] at hstep
      cases hstep
  | failing error =>
      cases hstep
      exact ⟨.failed _, hprepared, hreturned, hloaded, ⟨hreported, rfl⟩, trivial⟩
  | started hrunning =>
      cases hstep
      exact ⟨.joining hrunning, hprepared, hreturned, hloaded, hreported, trivial⟩
  | joining hrunning =>
      have hended : jvm ≠ .ended := by
        rintro rfl
        exact hrunning
      have hpanicked : jvm ≠ .panicked := by
        rintro rfl
        exact hrunning
      dsimp only at hstep
      rw [if_neg hended, if_neg hpanicked] at hstep
      cases hstep
  | failed error =>
      cases hstep
      exact ⟨.reported, hprepared, hreturned, hloaded, reported_showError rfl hreported, trivial⟩
  | reported =>
      cases hstep
      exact ⟨.reported, hprepared, hreturned, hloaded, hreported, rfl, rfl⟩

/-- While the thread of the machine has not told how it went, the first one waits for it. -/
theorem Coherent.of_starting {main : MainThread} {jvm : JvmThread} {channel : List (Option Chain)}
    (h : Coherent main jvm channel) (hstarting : Starting jvm) : main = .receiving ∧ channel = [] := by
  cases h with
  | starting => exact ⟨rfl, rfl⟩
  | started hrunning => cases jvm <;> contradiction
  | joining hrunning => cases jvm <;> contradiction
  | _ => contradiction

/-- Where the thread of the machine runs the main class, it goes on. -/
theorem Coherent.of_running {main : MainThread} {jvm jvm' : JvmThread}
    {channel : List (Option Chain)} (h : Coherent main jvm channel) (hrunning : Running jvm)
    (hrunning' : Running jvm') : Coherent main jvm' channel := by
  cases h with
  | starting hstarting => cases jvm <;> contradiction
  | started => exact .started hrunning'
  | joining => exact .joining hrunning'
  | _ => contradiction

/-- The thread of the machine does nothing to the first one, and ends the process when it is about
to. -/
theorem jvmStep_first (hstep : p.jvmStep launch answer = some q) :
    q.main = p.main ∧ q.reports = p.reports ∧
    (q.exit = p.exit ∨
      ∃ code, p.jvm = .exiting code ∧ q.jvm = .exiting code ∧ q.exit = some (.jvm code)) := by
  unfold Process.jvmStep creationEnd send at hstep
  grind

/-- Until it tells the first thread how it went, the thread of the machine sends nothing. -/
theorem starting_jvmStep (h : Starting p.jvm) (hsending : ∀ result, p.jvm ≠ .sending result)
    (hstep : p.jvmStep launch answer = some q) : Starting q.jvm ∧ q.channel = p.channel := by
  unfold Process.jvmStep creationEnd at hstep
  grind [Starting]

/-- The main class is run without another message to the first thread. -/
theorem running_jvmStep (h : Running p.jvm) (hstep : p.jvmStep launch answer = some q) :
    Running q.jvm ∧ q.channel = p.channel := by
  unfold Process.jvmStep at hstep
  grind [Running]

/-- The threads know of each other what they did before. -/
theorem coherent_jvmStep (h : Coherent p.main p.jvm p.channel)
    (hstep : p.jvmStep launch answer = some q) : Coherent q.main q.jvm q.channel := by
  rw [(jvmStep_first hstep).1]
  by_cases hrunning : Running p.jvm
  · obtain ⟨hrunning', hchannel⟩ := running_jvmStep hrunning hstep
    rw [hchannel]
    exact h.of_running hrunning hrunning'
  · by_cases hstarting : Starting p.jvm
    · obtain ⟨hmain, hchannel⟩ := h.of_starting hstarting
      by_cases hsending : ∃ result, p.jvm = .sending result
      · obtain ⟨result, hjvm⟩ := hsending
        unfold Process.jvmStep send at hstep
        rw [hjvm, hmain] at hstep
        cases hstep
        rw [hmain, hchannel]
        cases result with
        | none => exact .started trivial
        | some error => exact .failing error
      · have hnone : ∀ result, p.jvm ≠ .sending result := fun result hjvm => hsending ⟨result, hjvm⟩
        obtain ⟨hstarting', hsame⟩ := starting_jvmStep hstarting hnone hstep
        rw [hsame, hmain, hchannel]
        exact .starting hstarting'
    · -- it has not been started, or it has ended
      unfold Process.jvmStep at hstep
      cases hjvm : p.jvm <;> grind [Running, Starting]

/-- Each step of the thread of the machine does what the next one needs. -/
theorem prepared_jvmStep (hcoherent : Coherent p.main p.jvm p.channel) (h : Prepared launch p)
    (hstep : p.jvmStep launch answer = some q) : Prepared launch q := by
  have hmain : Starting p.jvm → p.main = .receiving := fun hstarting =>
    (hcoherent.of_starting hstarting).1
  unfold Process.jvmStep creationEnd send at hstep
  cases hjvm : p.jvm <;> grind [Prepared, CreatedOnce, Starting]

/-- The result of the main class is kept before the thread ends the process with it. -/
theorem returned_jvmStep (h : Returned p) (hstep : p.jvmStep launch answer = some q) :
    Returned q := by
  unfold Process.jvmStep creationEnd send at hstep
  cases hjvm : p.jvm <;> grind [Returned]

/-- The first step of the thread of the machine asks for the library. -/
theorem loaded_jvmStep (h : Loaded launch p) (hstep : p.jvmStep launch answer = some q) :
    Loaded launch q := by
  unfold Process.jvmStep creationEnd send at hstep
  cases hjvm : p.jvm <;> grind [Loaded]

/-- A step of the thread of the machine. -/
theorem Invariant.jvmStep (h : Invariant launch p) (hrun : p.exit = none)
    (hstep : p.jvmStep launch answer = some q) : Invariant launch q := by
  obtain ⟨hmain, hreports, hexit⟩ := jvmStep_first hstep
  refine ⟨coherent_jvmStep h.coherent hstep, prepared_jvmStep h.coherent h.prepared hstep,
    returned_jvmStep h.returned hstep, loaded_jvmStep h.loaded hstep, ?_, ?_⟩
  · have hreported := h.reported
    unfold Reported startReports at hreported ⊢
    rw [hmain, hreports]
    exact hreported
  · unfold Exited
    rcases hexit with hsame | ⟨code, -, hjvm, hexited⟩
    · rw [hsame, hrun]
      trivial
    · rw [hexited]
      exact hjvm

/-- A message that is not collected is printed. -/
theorem vfprintfHook_none (h : p.hookMessages = none) (text : Bytes) :
    p.vfprintfHook text = { p with printed := p.printed ++ [text] } := by
  unfold vfprintfHook
  rw [h]

theorem vfprintfHook_some {messages : List Str} (h : p.hookMessages = some messages)
    (text : Bytes) :
    p.vfprintfHook text = { p with hookMessages := some (messages ++ [messageOf text]) } := by
  unfold vfprintfHook
  rw [h]

theorem prepared_vfprintfHook (text : Bytes) (h : Prepared launch p) :
    Prepared launch (p.vfprintfHook text) := by
  obtain ⟨main, jvm, channel, hookMessages, locked, loads, creations, mainCalls, mainResults, printed,
    reports, exit⟩ := p
  cases hookMessages with
  | none => exact h
  | some messages =>
      cases jvm with
      | creating => exact h
      | created code => exact h
      | ended => exact h
      | panicked => exact h
      | sending result =>
          cases result with
          | none => cases h.2.1
          | some error => exact h
      | hooking args => cases h.2.2.1
      | _ => cases h.2.1

/-- An error of the machine is none of the start. -/
theorem startReports_abortHook (launch : JvmLaunch) (p : Process) :
    (p.abortHook launch).startReports = p.startReports := by
  unfold abortHook
  dsimp only
  split
  next => rfl
  next => exact (List.filter_append ..).trans (List.append_nil _)

theorem Invariant.abortHook (h : Invariant launch p) : Invariant launch (p.abortHook launch) := by
  obtain ⟨hcoherent, hprepared, hreturned, hloaded, hreported, hexited⟩ := h
  have hreports := startReports_abortHook launch p
  unfold Process.abortHook at hreports ⊢
  dsimp only at hreports ⊢
  split at hreports
  next hempty =>
    rw [if_pos hempty]
    exact ⟨hcoherent, hprepared, hreturned, hloaded, hreported, hexited⟩
  next hempty =>
    rw [if_neg hempty]
    refine ⟨hcoherent, hprepared, hreturned, hloaded, ?_, hexited⟩
    unfold Reported at hreported ⊢
    rw [hreports]
    exact hreported

/-- Every step keeps what holds of the process. -/
theorem Invariant.step (h : Invariant launch p) (hstep : p.step launch action = some q) :
    Invariant launch q := by
  unfold Process.step at hstep
  split at hstep
  next => cases hstep
  next hexit =>
    have hrun : p.exit = none := by simpa using hexit
    cases action with
    | main answer => exact h.mainStep hrun hstep
    | jvm answer => exact h.jvmStep hrun hstep
    | hook text =>
        dsimp only at hstep
        split at hstep
        next =>
          cases hstep
          obtain ⟨hcoherent, hprepared, hreturned, hloaded, hreported, hexited⟩ := h
          have hkept := prepared_vfprintfHook text hprepared
          cases hmessages : p.hookMessages with
          | none =>
              rw [vfprintfHook_none hmessages] at hkept ⊢
              exact ⟨hcoherent, hkept, hreturned, hloaded, hreported, hexited⟩
          | some messages =>
              rw [vfprintfHook_some hmessages] at hkept ⊢
              exact ⟨hcoherent, hkept, hreturned, hloaded, hreported, hexited⟩
        next => cases hstep
    | abort =>
        dsimp only at hstep
        split at hstep
        next =>
          cases hstep
          exact h.abortHook
        next => cases hstep
    | closed =>
        dsimp only at hstep
        split at hstep
        next =>
          cases hstep
          exact ⟨h.coherent, h.prepared, h.returned, h.loaded, h.reported, h.exited⟩
        next => cases hstep
    | machineExit code =>
        dsimp only at hstep
        split at hstep
        next =>
          cases hstep
          exact ⟨h.coherent, h.prepared, h.returned, h.loaded, h.reported, trivial⟩
        next => cases hstep

/-! ## Runs -/

theorem run_nil (p : Process) : p.run launch [] = some p :=
  rfl

theorem run_cons (p : Process) (action : Action) (actions : List Action) :
    p.run launch (action :: actions) = (p.step launch action).bind (·.run launch actions) :=
  List.foldlM_cons

theorem run_append (p : Process) (front back : List Action) :
    p.run launch (front ++ back) = (p.run launch front).bind (·.run launch back) :=
  List.foldlM_append

/-- Every run keeps what holds of the process. -/
theorem Invariant.run (h : Invariant launch p) (hrun : p.run launch actions = some q) :
    Invariant launch q := by
  induction actions generalizing p with
  | nil =>
      cases hrun
      exact h
  | cons action actions ih =>
      rw [run_cons] at hrun
      obtain ⟨p', hstep, hrest⟩ := Option.bind_eq_some_iff.mp hrun
      exact ih (h.step hstep) hrest

/-! ## Safety -/

/-- Nothing is called unless a machine was created. -/
theorem Invariant.calls (h : Invariant launch p) :
    (p.creations = [] ∨ CreatedOnce launch p) ∧
    (p.mainCalls = [] ∨ CreatedOnce launch p ∧ p.mainCalls = [launch.mainCall]) := by
  have hprepared := h.prepared
  unfold Prepared at hprepared
  split at hprepared <;> grind

/-- A machine is created from the library of the runtime. -/
theorem Invariant.loads (h : Invariant launch p) (hcreated : p.creations ≠ []) :
    p.loads = [launch.libjvmPath] := by
  have hprepared := h.prepared
  have hloaded := h.loaded
  unfold Prepared at hprepared
  unfold Loaded at hloaded
  split at hprepared <;> grind

/-- An error of the start is shown once, and only when the main class was not called. -/
theorem Invariant.reports (h : Invariant launch p) :
    p.startReports = [] ∨ p.mainCalls = [] ∧ p.main = .reported ∧ ∃ error,
      p.startReports = [.start (!launch.debugMode) (lit "Cannot start the runtime" :: error)] := by
  obtain ⟨hcoherent, hprepared, -, -, hreported, -⟩ := h
  unfold Reported at hreported
  split at hreported
  next hmain =>
    right
    have hcalls : p.mainCalls = [] := by
      rw [hmain] at hcoherent
      unfold Prepared at hprepared
      generalize p.jvm = jvm at hcoherent hprepared
      generalize p.channel = channel at hcoherent
      cases hcoherent with
      | notSpawnedReported => exact hprepared.2.2
      | reported => exact hprepared.2
    exact ⟨hcalls, hmain, hreported⟩
  next => exact Or.inl hreported.1
  next => contradiction
  next => exact Or.inl hreported

/-- In every run the machine is created at most once, with the options of the launch, and the main
class called at most once.  If the first thread ends the process, it has shown one error, the main
class was not called, and the code is 1.  If the thread of the machine ends it, no such error was
shown, and the code is 0 if the main class was called and has returned, and else it is 1. -/
theorem start_safe (h : start.run launch actions = some p) :
    (p.creations = [] ∨ CreatedOnce launch p) ∧
    (p.mainCalls = [] ∨ CreatedOnce launch p ∧ p.mainCalls = [launch.mainCall]) ∧
    (p.startReports = [] ∨ p.mainCalls = [] ∧ ∃ error, p.startReports =
      [.start (!launch.debugMode) (lit "Cannot start the runtime" :: error)]) ∧
    (∀ code, p.exit = some (.main code) →
      code = 1 ∧ p.mainCalls = [] ∧ p.startReports.length = 1) ∧
    ∀ code, p.exit = some (.jvm code) → CreatedOnce launch p ∧ p.startReports = [] ∧
      (code = 0 ∧ p.mainCalls = [launch.mainCall] ∧ p.mainResults = [none] ∨
        code = 1 ∧ none ∉ p.mainResults) := by
  have hinv := invariant_start.run h
  obtain ⟨hcreations, hcalls⟩ := hinv.calls
  have hreports := hinv.reports
  refine ⟨hcreations, hcalls, ?_, ?_, ?_⟩
  · rcases hreports with hnone | ⟨hnoCalls, -, hone⟩
    · exact Or.inl hnone
    · exact Or.inr ⟨hnoCalls, hone⟩
  · intro code hexit
    have hexited := hinv.exited
    rw [Exited, hexit] at hexited
    obtain ⟨rfl, hmain⟩ := hexited
    have hreported := hinv.reported
    rw [Reported, hmain] at hreported
    obtain ⟨error, hone⟩ := hreported
    rcases hreports with hnone | ⟨hnoCalls, -, -⟩
    · rw [hnone] at hone
      cases hone
    · exact ⟨rfl, hnoCalls, by rw [hone]; rfl⟩
  · intro code hexit
    have hexited := hinv.exited
    rw [Exited, hexit] at hexited
    have hprepared := hinv.prepared
    rw [Prepared, hexited] at hprepared
    obtain ⟨honce, -, hcode⟩ := hprepared
    have hreturned := hinv.returned
    rw [Returned, hexited] at hreturned
    refine ⟨honce, ?_, ?_⟩
    · rcases hreports with hnone | ⟨-, hmain, -⟩
      · exact hnone
      · have hcoherent := hinv.coherent
        rw [hmain, hexited] at hcoherent
        cases hcoherent
    · rcases hreturned with ⟨rfl, hresults⟩ | ⟨rfl, hresults⟩
      · rcases hcode with ⟨-, hcalled⟩ | ⟨hone, -⟩
        · exact Or.inl ⟨rfl, hcalled, hresults⟩
        · cases hone
      · exact Or.inr ⟨rfl, hresults⟩

/-- A launch with one option. -/
def smallJvmLaunch : JvmLaunch where
  jreHome := Path.ofStr (lit "/opt/idea/jbr")
  vmOptions := [lit "-Xbad"]
  mainClass := lit "com.intellij.idea.Main"
  args := [lit "project"]
  debugMode := true

/-- The thread of the machine is started, and its creation begins. -/
def smallBegin : List Action :=
  List.replicate 5 (.main .done) ++ List.replicate 4 (.jvm .done)

/-- The machine runs the main class, and a message comes while it does. -/
def smallSuccess : List Action :=
  smallBegin ++ [.jvm (.code 0), .jvm .done, .jvm .done, .jvm .done, .main .done, .jvm .done,
    .hook (Path.ofStr (lit "running")), .jvm .done, .jvm .done]

theorem start_safe_small :
    ∃ p, start.run smallJvmLaunch smallSuccess = some p ∧ p.exit = some (.jvm 0) ∧
      CreatedOnce smallJvmLaunch p ∧ p.startReports = [] := by
  have hdone : (start.run smallJvmLaunch smallSuccess).any
      (fun p => decide (p.exit = some (.jvm 0))) = true := by
    decide +kernel
  obtain ⟨p, hp, hexit⟩ := (Option.any_eq_true _ _).mp hdone
  obtain ⟨-, -, -, -, hjvm⟩ := start_safe hp
  obtain ⟨honce, hnone, -⟩ := hjvm 0 (of_decide_eq_true hexit)
  exact ⟨p, hp, of_decide_eq_true hexit, honce, hnone⟩

/-! ## Progress -/

/-- A call from the machine does nothing to the threads of the launcher. -/
theorem machine_frame (hstep : p.step launch action = some q)
    (hmain : ∀ answer, action ≠ .main answer) (hjvm : ∀ answer, action ≠ .jvm answer) :
    q.main = p.main ∧ q.jvm = p.jvm ∧ q.channel = p.channel ∧ q.startReports = p.startReports := by
  unfold Process.step at hstep
  split at hstep
  next => cases hstep
  next =>
    cases action with
    | main answer => exact absurd rfl (hmain answer)
    | jvm answer => exact absurd rfl (hjvm answer)
    | hook text =>
        dsimp only at hstep
        split at hstep
        next =>
          cases hstep
          cases hmessages : p.hookMessages with
          | none =>
              rw [vfprintfHook_none hmessages]
              exact ⟨rfl, rfl, rfl, rfl⟩
          | some messages =>
              rw [vfprintfHook_some hmessages]
              exact ⟨rfl, rfl, rfl, rfl⟩
        next => cases hstep
    | abort =>
        dsimp only at hstep
        split at hstep
        next =>
          cases hstep
          have hreports := startReports_abortHook launch p
          refine ⟨?_, ?_, ?_, hreports⟩ <;>
            unfold Process.abortHook <;> dsimp only <;> split <;> rfl
        next => cases hstep
    | closed =>
        dsimp only at hstep
        split at hstep
        next =>
          cases hstep
          exact ⟨rfl, rfl, rfl, rfl⟩
        next => cases hstep
    | machineExit code =>
        dsimp only at hstep
        split at hstep
        next =>
          cases hstep
          exact ⟨rfl, rfl, rfl, rfl⟩
        next => cases hstep

/-- A step of one of the two threads of the launcher. -/
def isThread : Action → Bool
  | .main _ | .jvm _ => true
  | _ => false

/-- How many steps the first thread can take. -/
def mainRank : MainThread → Nat
  | .resetting signals => signals.length + 5
  | .spawning => 4
  | .receiving => 3
  | .joining => 2
  | .failed _ => 1
  | .finished | .reported => 0

/-- How many steps the thread of the machine can take. -/
def jvmRank : JvmThread → Nat
  | .absent | .loading => 10
  | .resolving => 9
  | .arguing => 8
  | .hooking _ => 7
  | .creating => 6
  | .created _ => 5
  | .attaching => 4
  | .sending _ => 3
  | .preparing => 2
  | .inMain => 1
  | .exiting _ | .ended | .panicked => 0

/-- How many steps the launcher can take, with the one that ends the process. -/
def rank (p : Process) : Nat :=
  mainRank p.main + jvmRank p.jvm + if p.exit.isSome then 0 else 1

/-- A step of the first thread is one less that it can take. -/
theorem rank_mainStep (hrun : p.exit = none) (hcoherent : Coherent p.main p.jvm p.channel)
    (hstep : p.mainStep launch answer = some q) : rank q < rank p := by
  have hspawn : p.main = .spawning → p.jvm = .absent := by
    intro hmain
    rw [hmain] at hcoherent
    generalize p.jvm = jvm at hcoherent ⊢
    generalize p.channel = channel at hcoherent
    cases hcoherent
    rfl
  unfold Process.mainStep showError at hstep
  unfold rank
  cases hmain : p.main with
  | resetting signals =>
      rw [hmain] at hstep
      cases signals with
      | nil =>
          cases hstep
          simp [mainRank]
      | cons signal rest =>
          cases hstep
          cases answer <;> simp [resetSignalHandler, cannotStart, mainRank]
  | spawning =>
      rw [hmain] at hstep
      rw [hspawn hmain]
      cases answer <;> cases hstep <;> simp [cannotStart, mainRank, jvmRank, hspawn hmain]
  | receiving => grind [cannotStart, mainRank]
  | joining => grind [cannotStart, mainRank]
  | failed error =>
      rw [hmain] at hstep
      cases hstep
      simp [mainRank]
  | finished =>
      rw [hmain] at hstep
      cases hstep
      simp [mainRank, hrun]
  | reported =>
      rw [hmain] at hstep
      cases hstep
      simp [mainRank, hrun]

/-- A step of the thread of the machine is one less that it can take. -/
theorem rank_jvmStep (hrun : p.exit = none) (hstep : p.jvmStep launch answer = some q) :
    rank q < rank p := by
  unfold Process.jvmStep creationEnd send at hstep
  unfold rank
  cases hjvm : p.jvm <;> grind [jvmRank]

theorem rank_step (hinv : Invariant launch p) (hstep : p.step launch action = some q) :
    rank q + (if isThread action then 1 else 0) ≤ rank p := by
  have hrun : p.exit = none := by
    unfold Process.step at hstep
    split at hstep
    next => cases hstep
    next hexit => simpa using hexit
  have hmachine : (∀ answer, action ≠ .main answer) → (∀ answer, action ≠ .jvm answer) →
      rank q ≤ rank p := by
    intro hmain hjvm
    obtain ⟨hmain, hjvm, -, -⟩ := machine_frame hstep hmain hjvm
    unfold rank
    rw [hmain, hjvm, hrun]
    split <;> simp
  have hexit : ¬ p.exit.isSome = true := by simp [hrun]
  cases action with
  | main answer =>
      unfold Process.step at hstep
      rw [if_neg hexit] at hstep
      exact rank_mainStep hrun hinv.coherent hstep
  | jvm answer =>
      unfold Process.step at hstep
      rw [if_neg hexit] at hstep
      exact rank_jvmStep hrun hstep
  | _ => exact hmachine (fun _ heq => by cases heq) (fun _ heq => by cases heq)

/-- The launcher takes few steps. -/
theorem rank_run (hinv : Invariant launch p) (hrun : p.run launch actions = some q) :
    rank q + actions.countP isThread ≤ rank p := by
  induction actions generalizing p with
  | nil =>
      cases hrun
      exact le_rfl
  | cons action actions ih =>
      rw [run_cons] at hrun
      obtain ⟨p', hstep, hrest⟩ := Option.bind_eq_some_iff.mp hrun
      have hlater := ih (hinv.step hstep) hrest
      have hfirst := rank_step hinv hstep
      rw [List.countP_cons]
      omega

/-- The thread of the machine can go on until it has told how it went. -/
theorem jvmStep_isSome (hlocked : p.locked = false) (h : Starting p.jvm ∨ Running p.jvm) :
    (p.jvmStep launch (.code 0)).isSome = true := by
  unfold Process.jvmStep creationEnd
  cases hjvm : p.jvm with
  | arguing =>
      dsimp only
      split <;> rfl
  | hooking args =>
      dsimp only
      rw [hlocked]
      rfl
  | created code =>
      dsimp only
      rw [hlocked, if_neg Bool.false_ne_true]
      split
      · rfl
      · split <;> rfl
  | absent => simp [hjvm, Starting, Running] at h
  | ended => simp [hjvm, Starting, Running] at h
  | panicked => simp [hjvm, Starting, Running] at h
  | _ => rfl

/-- The first thread can go on unless it waits for the other one. -/
theorem mainStep_isSome (hmain : p.main ≠ .receiving) (hjoining : p.main ≠ .joining) :
    (p.mainStep launch .done).isSome = true := by
  unfold Process.mainStep
  cases hplace : p.main with
  | resetting signals => cases signals <;> rfl
  | receiving => exact absurd hplace hmain
  | joining => exact absurd hplace hjoining
  | _ => rfl

/-- The launcher is never stuck: until the process ends, one of its two threads can go on, unless
an error of the machine is shown, which the user can close.  And whatever the machine does, the two
threads take at most 19 steps. -/
theorem start_progress (h : start.run launch actions = some p) :
    actions.countP isThread ≤ 19 ∧
    (p.exit = none → p.locked = true → (p.step launch .closed).isSome = true) ∧
    (p.exit = none → p.locked = false →
      ∃ action, isThread action = true ∧ (p.step launch action).isSome = true) := by
  have hinv := invariant_start.run h
  refine ⟨?_, ?_, ?_⟩
  · have hrank := rank_run invariant_start h
    have hstart : rank start = 19 := rfl
    omega
  · intro hrun hlocked
    unfold Process.step
    simp [hrun, hlocked]
  · intro hrun hlocked
    have hmain : ∀ answer, p.step launch (.main answer) = p.mainStep launch answer := by
      intro answer
      simp [Process.step, hrun]
    have hjvm : ∀ answer, p.step launch (.jvm answer) = p.jvmStep launch answer := by
      intro answer
      simp [Process.step, hrun]
    have hcoherent := hinv.coherent
    by_cases hgoes : Starting p.jvm ∨ Running p.jvm
    · refine ⟨.jvm (.code 0), rfl, ?_⟩
      rw [hjvm]
      exact jvmStep_isSome hlocked hgoes
    · refine ⟨.main .done, rfl, ?_⟩
      rw [hmain]
      generalize hplace : p.main = main at hcoherent
      generalize p.jvm = jvm at hcoherent hgoes
      generalize hchannel : p.channel = channel at hcoherent
      cases hcoherent with
      | starting hstarting => exact absurd (Or.inl hstarting) hgoes
      | started hrunning => exact absurd (Or.inr hrunning) hgoes
      | joining hrunning => exact absurd (Or.inr hrunning) hgoes
      | failing error =>
          unfold Process.mainStep
          rw [hplace, hchannel]
          rfl
      | _ =>
          refine mainStep_isSome ?_ ?_ <;> rw [hplace] <;> exact nofun

theorem start_progress_small :
    ∃ p, start.run smallJvmLaunch smallBegin = some p ∧
      ∃ action, isThread action = true ∧ (p.step smallJvmLaunch action).isSome = true := by
  have hdone : (start.run smallJvmLaunch smallBegin).any
      (fun p => decide (p.exit = none ∧ p.locked = false)) = true := by
    decide +kernel
  obtain ⟨p, hp, hwaits⟩ := (Option.any_eq_true _ _).mp hdone
  obtain ⟨hexit, hlocked⟩ := of_decide_eq_true hwaits
  exact ⟨p, hp, (start_progress hp).2.2 hexit hlocked⟩

end Process
end Launcher
end IdeMultiarch
