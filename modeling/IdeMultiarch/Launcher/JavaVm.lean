import IdeMultiarch.Launcher.VmOptions

/-!
# Launcher - starting the virtual machine

The launcher loads the virtual machine in a thread of its own and waits for a message from it.  The
machine calls back into the launcher to print and before it gives up, from any of its threads.
While the machine is created, what it prints is collected, and shown if the creation fails.

A run is a sequence of steps of the two threads of the launcher, with the answers of the calls they
make, and of calls from the machine, in any order.

Main results:

- Definition {lit}`Process.step`: one step of either thread, or a call from the machine.
- Definition {lit}`Process.run`: a run, in any order of the steps.
-/

namespace IdeMultiarch
namespace Launcher

open Library.Results (bind_eq_ok)
open Library.Text (replace)

/-! ## Arguments of the machine -/

/-- {lit}`extraInfo`: the function of the launcher that comes with an option. -/
inductive ExtraInfo
  | null
  | abortHook
  | vfprintfHook
deriving DecidableEq, Repr

/-- {lit}`JavaVMOption` -/
structure JavaVMOption where
  optionString : Bytes
  extraInfo : ExtraInfo
deriving DecidableEq, Repr

/-- {lit}`CString::new` -/
def cString (bytes : Bytes) : Except Str Bytes :=
  match bytes.findIdx? (· = 0) with
  | none => .ok bytes
  | some position =>
      .error (lit "nul byte found in provided data at position: " ++ Nat.toDigits 10 position)

/-- {lit}`convert_vm_options` -/
def convertVmOptions : List Str → Except Str (List Bytes)
  | [] => .ok []
  | opt :: vmOptions => do
      let string ← cString (Path.ofStr opt)
      let strings ← convertVmOptions vmOptions
      return string :: strings

/-- {lit}`get_jvm_init_args`: the options. -/
def getJvmInitArgs (vmOptions : List Str) : Except Str (List JavaVMOption) := do
  let cVmOptions ← convertVmOptions vmOptions
  return ⟨Path.ofStr (lit "abort"), .abortHook⟩ :: ⟨Path.ofStr (lit "vfprintf"), .vfprintfHook⟩ ::
    cVmOptions.map fun opt => ⟨opt, .null⟩

/-- The arguments of {lit}`run_jvm_and_event_loop`. -/
structure JvmLaunch where
  jreHome : Path
  vmOptions : List Str
  mainClass : Str
  args : List Str
  debugMode : Bool
deriving DecidableEq, Repr

namespace JvmLaunch

variable (launch : JvmLaunch)

/-- The command line that the machine reports. -/
def javaCommand : Str :=
  launch.mainClass ++ launch.args.flatMap (' ' :: ·)

/-- The options with which the machine is created. -/
def allVmOptions : List Str :=
  launch.vmOptions ++ [jvmProperty (lit "sun.java.command") launch.javaCommand]

/-- The library of the machine, {lit}`JVM_LIB_REL_PATH` in the runtime. -/
def libjvmPath : Path :=
  launch.jreHome.join (Path.ofStr (lit "lib/server/libjvm.so"))

/-- The class and the arguments of {lit}`call_main_method`. -/
def mainCall : Str × List Str :=
  (replace (lit ".") (lit "/") launch.mainClass, launch.args)

end JvmLaunch

/-! ## The two threads -/

/-- An error with what was put around it, the outermost text first. -/
abbrev Chain := List Str

/-- Where the first thread stands in {lit}`run_jvm_and_event_loop` and its callers. -/
inductive MainThread
  | resetting (signals : List Nat)
  | spawning
  | receiving
  | joining
  | failed (error : Chain)
  | finished
  | reported
deriving DecidableEq, Repr

/-- Where the thread of the machine stands. -/
inductive JvmThread
  | absent
  | loading
  | resolving
  | arguing
  | hooking (args : List JavaVMOption)
  | creating
  | created (code : Int)
  | attaching
  | sending (result : Option Chain)
  | preparing
  | inMain
  | exiting (code : Int)
  | ended
  | panicked
deriving DecidableEq, Repr

/-- An error that is shown to the user: at the end of the launcher, or of the machine. -/
inductive Report
  | start (gui : Bool) (error : Chain)
  | abort (gui : Bool) (text : Str)
deriving DecidableEq, Repr

/-- How the process ended. -/
inductive Exit
  | main (code : Int)
  | jvm (code : Int)
  | machine (code : Int)
deriving DecidableEq, Repr

/-- The process. -/
structure Process where
  main : MainThread
  jvm : JvmThread
  channel : List (Option Chain)
  hookMessages : Option (List Str)
  -- the error that {lit}`abort_hook` shows with the messages locked
  locked : Bool
  -- the libraries that were asked for
  loads : List Path
  creations : List (List JavaVMOption)
  mainCalls : List (Str × List Str)
  -- for each call that has come back: nothing if the main class has returned, or the error
  mainResults : List (Option Str)
  printed : List Bytes
  reports : List Report
  exit : Option Exit
deriving DecidableEq, Repr

/-- The answer of a call that a thread makes. -/
inductive Answer
  | done
  | error (text : Str)
  | code (value : Int)
deriving DecidableEq, Repr

/-- One step: of the first thread or the thread of the machine, with the answer of the call that it
makes, a call of a hook from any thread of the machine, the end of an error that was shown, or the
end of the process from inside of the machine. -/
inductive Action
  | main (answer : Answer)
  | jvm (answer : Answer)
  | hook (text : Bytes)
  | abort
  | closed
  | machineExit (code : Int)
deriving DecidableEq, Repr

namespace Process

variable (launch : JvmLaunch)

/-- {lit}`SIGBUS`, {lit}`SIGSEGV` and {lit}`SIGINT` -/
def signals : List Nat :=
  [7, 11, 2]

/-- The process when {lit}`run_jvm_and_event_loop` is called. -/
def start : Process where
  main := .resetting signals
  jvm := .absent
  channel := []
  hookMessages := none
  locked := false
  loads := []
  creations := []
  mainCalls := []
  mainResults := []
  printed := []
  reports := []
  exit := none

/-- The context that {lit}`main_impl` gives to an error. -/
def cannotStart (error : Chain) : MainThread :=
  .failed (lit "Cannot start the runtime" :: error)

/-- {lit}`reset_signal_handler` -/
def resetSignalHandler (signal : Nat) (rest : List Nat) : Answer → MainThread
  | .error text =>
      cannotStart [lit "sigaction(" ++ Nat.toDigits 10 signal ++ lit "): " ++ text]
  | _ => .resetting rest

/-- {lit}`show_error` at the end of {lit}`main_lib` -/
def showError (p : Process) (error : Chain) : Process :=
  { p with main := .reported, reports := p.reports ++ [.start (!launch.debugMode) error] }

/-- One step of the first thread. -/
def mainStep (p : Process) (answer : Answer) : Option Process :=
  match p.main with
  | .resetting [] => some { p with main := .spawning }
  | .resetting (signal :: rest) => some { p with main := resetSignalHandler signal rest answer }
  | .spawning =>
      match answer with
      | .error text => some { p with main := cannotStart [text] }
      | _ => some { p with main := .receiving, jvm := .loading }
  | .receiving =>
      match p.channel with
      | some error :: rest => some { p with main := cannotStart error, channel := rest }
      | none :: rest => some { p with main := .joining, channel := rest }
      | [] =>
          -- the sender lives as long as its thread
          if p.jvm = .ended ∨ p.jvm = .panicked then
            some { p with main := cannotStart [lit "receiving on a closed channel"] }
          else none
  | .joining =>
      if p.jvm = .ended then some { p with main := .finished }
      else if p.jvm = .panicked then
        some { p with main := cannotStart [lit "JVM thread panicked: "] }
      else none
  | .failed error => some (p.showError launch error)
  | .reported => some { p with exit := some (.main 1) }
  | .finished => some { p with exit := some (.main 0) }

/-- What the first thread is told when the machine could not be created. -/
def creationError (code : Int) (messages : List Str) : Str :=
  if messages.flatten = [] then
    lit "Unknown error (JNI_CreateJavaVM: " ++ (toString code).toList ++ lit ")"
  else messages.flatten

/-- The end of {lit}`JNI_CreateJavaVM`: the messages are read or no longer collected. -/
def creationEnd (p : Process) (code : Int) : Option Process :=
  if p.locked then none
  else if code = 0 then some { p with hookMessages := none, jvm := .attaching }
  else
    match p.hookMessages with
    | none =>
        some { p with
          jvm := .sending (some [lit "failed to get as_ref from HOOK_MESSAGES.lock()"]) }
    | some messages => some { p with jvm := .sending (some [creationError code messages]) }

/-- {lit}`send`: the receiver lives until the first thread has received. -/
def send (p : Process) (result : Option Chain) : Process :=
  if p.main = .receiving then
    { p with
      channel := p.channel ++ [result]
      jvm := if result.isSome then .ended else .preparing }
  else { p with jvm := .panicked }

/-- One step of the thread of the machine: {lit}`load_and_start_jvm`, the message to the first
thread, and {lit}`call_main_method`. -/
def jvmStep (p : Process) (answer : Answer) : Option Process :=
  match p.jvm with
  | .loading =>
      match answer with
      | .error text =>
          some { p with
            loads := p.loads ++ [launch.libjvmPath]
            jvm := .sending (some [lit "Failed to load 'libjvm.so'", text]) }
      | _ => some { p with loads := p.loads ++ [launch.libjvmPath], jvm := .resolving }
  | .resolving =>
      match answer with
      | .error text => some { p with jvm := .sending (some [text]) }
      | _ => some { p with jvm := .arguing }
  | .arguing =>
      match getJvmInitArgs launch.allVmOptions with
      | .error text => some { p with jvm := .sending (some [text]) }
      | .ok args => some { p with jvm := .hooking args }
  | .hooking args =>
      if p.locked then none
      else
        some { p with
          hookMessages := some []
          jvm := .creating
          creations := p.creations ++ [args] }
  | .creating =>
      match answer with
      | .code value => some { p with jvm := .created value }
      | _ => none
  | .created code => p.creationEnd code
  | .attaching =>
      match answer with
      | .error text => some { p with jvm := .sending (some [text]) }
      | _ => some { p with jvm := .sending none }
  | .sending result => some (p.send result)
  | .preparing =>
      match answer with
      | .error _ => some { p with jvm := .exiting 1 }
      | _ => some { p with jvm := .inMain, mainCalls := p.mainCalls ++ [launch.mainCall] }
  | .inMain =>
      match answer with
      | .error text =>
          some { p with jvm := .exiting 1, mainResults := p.mainResults ++ [some text] }
      | _ => some { p with jvm := .exiting 0, mainResults := p.mainResults ++ [none] }
  | .exiting code => some { p with exit := some (.jvm code) }
  | .absent | .ended | .panicked => none

/-- The machine has the hooks. -/
def Hooked (p : Process) : Prop :=
  p.creations ≠ []

instance (p : Process) : Decidable p.Hooked :=
  inferInstanceAs (Decidable (_ ≠ _))

/-- What is kept of a message: it is formatted into a buffer of 4096 bytes. -/
def messageOf (text : Bytes) : Str :=
  Path.toStringLossy ((text.take 4095).takeWhile (· ≠ 0))

/-- {lit}`vfprintf_hook` -/
def vfprintfHook (p : Process) (text : Bytes) : Process :=
  match p.hookMessages with
  | none => { p with printed := p.printed ++ [text] }
  | some messages => { p with hookMessages := some (messages ++ [messageOf text]) }

/-- {lit}`abort_hook`, up to the error that is shown. -/
def abortHook (p : Process) : Process :=
  let text := (p.hookMessages.getD []).flatten
  if text = [] then p
  else { p with locked := true, reports := p.reports ++ [.abort (!launch.debugMode) text] }

/-- One step of the process.  Nothing can happen after its end, and a hook waits for the lock. -/
def step (p : Process) (action : Action) : Option Process :=
  if p.exit.isSome then none
  else
    match action with
    | .main answer => p.mainStep launch answer
    | .jvm answer => p.jvmStep launch answer
    | .hook text => if p.Hooked ∧ p.locked = false then some (p.vfprintfHook text) else none
    | .abort => if p.Hooked ∧ p.locked = false then some (p.abortHook launch) else none
    | .closed => if p.locked then some { p with locked := false } else none
    | .machineExit code => if p.Hooked then some { p with exit := some (.machine code) } else none

/-- A run of the process. -/
def run (p : Process) (actions : List Action) : Option Process :=
  actions.foldlM (step launch) p

end Process

end Launcher
end IdeMultiarch
