import IdeMultiarch.Launcher.Std
import IdeMultiarch.Library.Blocks

/-!
# Restarter - the command line

The restarter gets the number of a process and a list of commands, each behind the number of its
arguments.  It waits for the process, runs the commands one after the other, and puts the last one
in its own place.  Positions in the list are machine words, and in a release build their sums wrap
around.

Main results:

- Theorem {lit}`parseCommands_blocks`: complete blocks are read one after the other.
- Theorem {lit}`parseCommands_encode`: written commands are read back.
- Theorem {lit}`parsed_exactly_iff`: when a command line is accepted or refused as it should be.
-/

namespace IdeMultiarch
namespace Restarter

open Launcher (Str lit)
open Library (Blocks encodeBlocks)

/-! ## Numbers -/

/-- {lit}`IntErrorKind` -/
inductive IntErrorKind where
  | empty
  | invalidDigit
  | posOverflow
  | negOverflow
deriving DecidableEq, Repr

/-- The digits of a number up to a limit, after some digits that were read. -/
def parseDigits (overflow : IntErrorKind) (limit : Nat) (number : Nat) :
    Str → Except IntErrorKind Nat
  | [] => .ok number
  | c :: digits =>
      if c.isDigit = false then .error .invalidDigit
      else if limit < 10 * number + (c.toNat - '0'.toNat) then .error overflow
      else parseDigits overflow limit (10 * number + (c.toNat - '0'.toNat)) digits

/-- The number of values of a machine word. -/
def USIZE : Nat := 0x10000000000000000

/-- {lit}`parse::<usize>` -/
def parseUsize (src : Str) : Except IntErrorKind Nat :=
  match src with
  | [] => .error .empty
  | ['+'] => .error .invalidDigit
  | '+' :: digits => parseDigits .posOverflow (USIZE - 1) 0 digits
  | digits => parseDigits .posOverflow (USIZE - 1) 0 digits

/-- {lit}`parse::<i32>` -/
def parseI32 (src : Str) : Except IntErrorKind Int :=
  match src with
  | [] => .error .empty
  | ['+'] => .error .invalidDigit
  | ['-'] => .error .invalidDigit
  | '+' :: digits => (parseDigits .posOverflow 0x7fffffff 0 digits).map Int.ofNat
  | '-' :: digits => (parseDigits .negOverflow 0x80000000 0 digits).map fun n => -Int.ofNat n
  | digits => (parseDigits .posOverflow 0x7fffffff 0 digits).map Int.ofNat

/-- The sum of two machine words. -/
def wrappingAdd (a b : Nat) : Nat :=
  (a + b) % USIZE

theorem wrappingAdd_eq {a b : Nat} (h : a + b < USIZE) : wrappingAdd a b = a + b :=
  Nat.mod_eq_of_lt h

/-- A sum that wraps around is less than both words. -/
theorem wrappingAdd_wraps {a b : Nat} (ha : a < USIZE) (hb : b < USIZE) (h : USIZE ≤ a + b) :
    wrappingAdd a b = a + b - USIZE := by
  unfold wrappingAdd
  rw [Nat.mod_eq_sub_mod h, Nat.mod_eq_of_lt (by omega)]

/-! ## The commands -/

/-- The arguments of a process, whose number is a machine word. -/
structure Args where
  items : List Str
  length_lt : items.length < USIZE

/-- The errors of {lit}`process_args`. -/
inductive ArgsError where
  /-- {lit}`ParseIntError` -/
  | parse (kind : IntErrorKind)
  /-- {lit}`Cannot wait for itself` -/
  | waitsForItself
  /-- {lit}`unexpected '{}' at {}` -/
  | unexpected (argN argIdx : Nat)
  /-- A command that the system does not start. -/
  | notStarted (command : List Str)
deriving DecidableEq, Repr

/-- What becomes of the commands on the command line. -/
inductive Parsed where
  | accepted (commands : List (List Str))
  | rejected (error : ArgsError)
  | panicked
deriving DecidableEq, Repr

/-- The loop of {lit}`process_args`, at a position and with the commands so far. -/
def parseCommands (args : Args) (argIdx : Nat) (commands : List (List Str)) : Parsed :=
  if hidx : argIdx < args.items.length then
    match parseUsize args.items[argIdx] with
    | .error kind => .rejected (.parse kind)
    | .ok argN =>
        if argN = 0 ∨ args.items.length ≤ wrappingAdd argIdx argN then
          .rejected (.unexpected argN argIdx)
        else
          let start := wrappingAdd argIdx 1
          let stop := wrappingAdd start argN
          -- a slice must not end before it starts, nor behind the end
          if hslice : start ≤ stop ∧ stop ≤ args.items.length then
            parseCommands args stop (commands ++ [(args.items.drop start).take (stop - start)])
          else .panicked
  else .accepted commands
termination_by args.items.length - argIdx
decreasing_by
  have hlength := args.length_lt
  have hstart : wrappingAdd argIdx 1 = argIdx + 1 := wrappingAdd_eq (by omega)
  have hle : wrappingAdd argIdx 1 ≤ wrappingAdd (wrappingAdd argIdx 1) argN := hslice.1
  omega

/-- What the restarter does. -/
inductive Event where
  | waitFor (pid : Int)
  | run (command : List Str)
  | exec (command : List Str)
deriving DecidableEq, Repr

/-- How the restarter ends: with an error, with a panic, as another program, or not at all. -/
inductive Outcome where
  | ok
  | failed (error : ArgsError)
  | panicked
  | replaced
  | waiting
deriving DecidableEq, Repr

/-- The number of the restarter's own process, whether another process ends, and which commands
can be started. -/
structure System where
  processId : Nat
  ends : Int → Bool
  starts : List Str → Bool

section

variable (system : System)

/-- The loop over the commands: {lit}`run_command`, and {lit}`exec_command` for the last one. -/
def runCommands : List (List Str) → List Event × Outcome
  | [] => ([], .ok)
  | [command] =>
      if command = [] then ([], .panicked)
      else if system.starts command then ([.exec command], .replaced)
      else ([.exec command], .failed (.notStarted command))
  | command :: commands =>
      if command = [] then ([], .panicked)
      else if system.starts command then
        let (events, outcome) := runCommands commands
        (.run command :: events, outcome)
      else ([.run command], .failed (.notStarted command))

/-- {lit}`wait_for_process_exit` and what follows. -/
def waitAndRun (pid : Int) (commands : List (List Str)) : List Event × Outcome :=
  if system.ends pid then
    let (events, outcome) := runCommands system commands
    (.waitFor pid :: events, outcome)
  else ([.waitFor pid], .waiting)

/-- {lit}`process_args` -/
def processArgs (args : Args) : List Event × Outcome :=
  match args.items[1]? with
  | none => ([], .panicked)
  | some arg =>
      match parseI32 arg with
      | .error kind => ([], .failed (.parse kind))
      | .ok pid =>
          if pid % 0x100000000 = system.processId then ([], .failed .waitsForItself)
          else
            match parseCommands args 2 [] with
            | .panicked => ([], .panicked)
            | .rejected error => ([], .failed error)
            | .accepted commands => waitAndRun system pid commands

end

/-! ## Reading numbers -/

/-- The number of arguments that a header announces. -/
def countOf (header : Str) : Option Nat :=
  (parseUsize header).toOption

theorem countOf_eq_some {header : Str} {n : Nat} :
    countOf header = some n ↔ parseUsize header = .ok n := by
  unfold countOf
  cases parseUsize header <;> simp [Except.toOption]

theorem le_ofDigitChars (number : Nat) (digits : Str) :
    number ≤ Nat.ofDigitChars 10 digits number := by
  induction digits generalizing number with
  | nil => simp
  | cons c digits ih =>
      rw [Nat.ofDigitChars_cons]
      exact Nat.le_trans (by omega) (ih _)

theorem parseDigits_le {overflow : IntErrorKind} {limit number n : Nat} {digits : Str}
    (hnumber : number ≤ limit) (h : parseDigits overflow limit number digits = .ok n) :
    n ≤ limit := by
  induction digits generalizing number with
  | nil =>
      cases h
      exact hnumber
  | cons c digits ih =>
      rw [parseDigits] at h
      split at h
      next => cases h
      next =>
        split at h
        next => cases h
        next hle => exact ih (by omega) h

/-- What is read is a machine word. -/
theorem parseUsize_lt {src : Str} {n : Nat} (h : parseUsize src = .ok n) : n < USIZE := by
  have hlast : USIZE - 1 < USIZE := by decide
  unfold parseUsize at h
  split at h
  next => cases h
  next => cases h
  next => exact Nat.lt_of_le_of_lt (parseDigits_le (Nat.zero_le _) h) hlast
  next => exact Nat.lt_of_le_of_lt (parseDigits_le (Nat.zero_le _) h) hlast

/-- Digits are read as the number that they stand for, if it is in the limit. -/
theorem parseDigits_eq {overflow : IntErrorKind} {limit number : Nat} {digits : Str}
    (hdigits : ∀ c ∈ digits, c.isDigit = true)
    (hlimit : Nat.ofDigitChars 10 digits number ≤ limit) :
    parseDigits overflow limit number digits = .ok (Nat.ofDigitChars 10 digits number) := by
  induction digits generalizing number with
  | nil => rfl
  | cons c digits ih =>
      obtain ⟨hc, hdigits⟩ := List.forall_mem_cons.mp hdigits
      rw [Nat.ofDigitChars_cons] at hlimit ⊢
      have hle := Nat.le_trans (le_ofDigitChars _ digits) hlimit
      rw [parseDigits, if_neg (by simp [hc]), if_neg (by omega), ih hdigits hlimit]

/-- A number in decimal digits. -/
def decimal (n : Nat) : Str :=
  Nat.toDigits 10 n

/-- A machine word in decimal digits is read back. -/
theorem parseUsize_decimal {n : Nat} (h : n < USIZE) : parseUsize (decimal n) = .ok n := by
  have hdigits : ∀ c ∈ decimal n, c.isDigit = true :=
    fun c hc => Nat.isDigit_of_mem_toDigits (by decide) (by decide) hc
  have hvalue : Nat.ofDigitChars 10 (decimal n) 0 = n := Nat.ofDigitChars_ten_toDigits
  have hread : parseDigits .posOverflow (USIZE - 1) 0 (decimal n) = .ok n := by
    rw [parseDigits_eq hdigits (by rw [hvalue]; omega), hvalue]
  have hne : decimal n ≠ [] := Nat.toDigits_ne_nil
  have hplus : ∀ digits, decimal n ≠ '+' :: digits := by
    intro digits h
    have hdigit := hdigits '+' (h ▸ List.mem_cons_self)
    cases hdigit
  unfold parseUsize
  split
  next h => exact absurd h hne
  next h => exact absurd h (hplus [])
  next h => exact absurd h (hplus _)
  next => exact hread

/-! ## The loop -/

section

variable {args : Args}

/-- One complete block. -/
theorem parseCommands_block {argIdx : Nat} {header : Str} {block rest : List Str}
    (commands : List (List Str)) (hitems : args.items.drop argIdx = header :: (block ++ rest))
    (hcount : countOf header = some block.length) (hblock : block ≠ []) :
    parseCommands args argIdx commands =
      parseCommands args (argIdx + 1 + block.length) (commands ++ [block]) := by
  have hlength := congrArg List.length hitems
  simp only [List.length_drop, List.length_cons, List.length_append] at hlength
  have hbound := args.length_lt
  have hidx : argIdx < args.items.length := by omega
  have hheader : args.items[argIdx] = header := by
    rw [List.drop_eq_getElem_cons hidx] at hitems
    exact (List.cons.inj hitems).1
  have hrest : args.items.drop (argIdx + 1) = block ++ rest := by
    rw [List.drop_eq_getElem_cons hidx] at hitems
    exact (List.cons.inj hitems).2
  have hnonempty : block.length ≠ 0 := by simpa using hblock
  have hsum : wrappingAdd argIdx block.length = argIdx + block.length := wrappingAdd_eq (by omega)
  have hstart : wrappingAdd argIdx 1 = argIdx + 1 := wrappingAdd_eq (by omega)
  have hstop : wrappingAdd (argIdx + 1) block.length = argIdx + 1 + block.length :=
    wrappingAdd_eq (by omega)
  have hslice : ((args.items.drop (argIdx + 1)).take (argIdx + 1 + block.length - (argIdx + 1))) =
      block := by
    rw [hrest, Nat.add_sub_cancel_left, List.take_left]
  conv => lhs; rw [parseCommands]
  simp only [hidx, dif_pos, hheader, countOf_eq_some.mp hcount, hsum, hstart, hstop, hslice]
  rw [if_neg (by omega), dif_pos (by omega)]

/-- Complete blocks are read one after the other. -/
theorem parseCommands_blocks {front rest : List Str} {blocks : List (List Str)}
    (hblocks : Blocks countOf front blocks) {argIdx : Nat} (commands : List (List Str))
    (hitems : args.items.drop argIdx = front ++ rest) :
    parseCommands args argIdx commands =
      parseCommands args (argIdx + front.length) (commands ++ blocks) := by
  induction hblocks generalizing argIdx commands with
  | nil => simp
  | @cons header block back blocks hcount hblock hback ih =>
      rw [List.cons_append, List.append_assoc] at hitems
      have hnext : args.items.drop (argIdx + 1 + block.length) = back ++ rest := by
        rw [Nat.add_assoc, ← List.drop_drop, hitems, Nat.add_comm, List.drop_succ_cons,
          List.drop_left]
      rw [parseCommands_block commands hitems hcount hblock, ih _ hnext]
      simp only [List.length_cons, List.length_append, List.append_assoc, List.singleton_append]
      congr 1
      omega

/-- Blocks up to the end are the commands. -/
theorem parseCommands_accepted {tail : List Str} {blocks : List (List Str)} {argIdx : Nat}
    (hblocks : Blocks countOf tail blocks) (hitems : args.items.drop argIdx = tail) :
    parseCommands args argIdx [] = .accepted blocks := by
  have hend : args.items.drop argIdx = tail ++ [] := by rw [hitems, List.append_nil]
  rw [parseCommands_blocks hblocks [] hend, parseCommands]
  have hlength := congrArg List.length hitems
  rw [List.length_drop] at hlength
  rw [dif_neg (by omega), List.nil_append]

/-- A slice that is taken is a block. -/
theorem drop_eq_block {argIdx argN : Nat} (hidx : argIdx < args.items.length)
    (hread : parseUsize args.items[argIdx] = .ok argN) (hargN : argN ≠ 0)
    (hslice : wrappingAdd argIdx 1 ≤ wrappingAdd (wrappingAdd argIdx 1) argN ∧
      wrappingAdd (wrappingAdd argIdx 1) argN ≤ args.items.length) :
    ∃ block, block = (args.items.drop (wrappingAdd argIdx 1)).take
        (wrappingAdd (wrappingAdd argIdx 1) argN - wrappingAdd argIdx 1) ∧
      countOf args.items[argIdx] = some block.length ∧ block ≠ [] ∧
        wrappingAdd (wrappingAdd argIdx 1) argN = argIdx + (block.length + 1) ∧
        args.items.drop argIdx = args.items[argIdx] :: (block ++
          args.items.drop (wrappingAdd (wrappingAdd argIdx 1) argN)) := by
  have hbound := args.length_lt
  have hword := parseUsize_lt hread
  have hstart : wrappingAdd argIdx 1 = argIdx + 1 := wrappingAdd_eq (by omega)
  rw [hstart] at hslice ⊢
  have hstop : wrappingAdd (argIdx + 1) argN = argIdx + 1 + argN := by
    by_contra hne
    have hwraps : USIZE ≤ argIdx + 1 + argN := by
      by_contra hlt
      exact hne (wrappingAdd_eq (by omega))
    rw [wrappingAdd_wraps (by omega) hword hwraps] at hslice
    omega
  rw [hstop] at hslice ⊢
  have hlength : ((args.items.drop (argIdx + 1)).take argN).length = argN := by
    rw [List.length_take, List.length_drop]
    omega
  refine ⟨_, rfl, ?_⟩
  rw [Nat.add_sub_cancel_left, hlength, countOf_eq_some]
  refine ⟨hread, ?_, by omega, ?_⟩
  · intro hnil
    rw [hnil] at hlength
    exact hargN hlength.symm
  · have hrest := List.take_append_drop argN (args.items.drop (argIdx + 1))
    rw [List.drop_drop] at hrest
    rw [List.drop_eq_getElem_cons hidx, hrest]

/-- Only blocks are accepted. -/
theorem blocks_of_accepted {argIdx : Nat} {commands result : List (List Str)}
    (h : parseCommands args argIdx commands = .accepted result) :
    ∃ blocks, Blocks countOf (args.items.drop argIdx) blocks ∧ result = commands ++ blocks := by
  fun_induction parseCommands args argIdx commands with
  | case1 => cases h
  | case2 => cases h
  | case3 argIdx commands hidx argN hread hargN start stop hslice ih =>
      obtain ⟨blocks, hblocks, rfl⟩ := ih h
      obtain ⟨block, hblock, hcount, hne, -, hitems⟩ :=
        drop_eq_block hidx hread (fun h => hargN (.inl h)) hslice
      rw [← hblock, List.append_assoc]
      refine ⟨block :: blocks, ?_, rfl⟩
      rw [hitems]
      exact .cons hcount hne hblocks
  | case4 => cases h
  | case5 argIdx commands hidx =>
      cases h
      exact ⟨[], by rw [List.drop_eq_nil_of_le (by omega)]; exact .nil, by simp⟩

/-- Behind complete blocks, a position and a number have a sum that wraps around. -/
def Wraps (args : Args) (argIdx : Nat) : Prop :=
  ∃ front blocks header rest argN, args.items.drop argIdx = front ++ header :: rest ∧
    Blocks countOf front blocks ∧ parseUsize header = .ok argN ∧
      USIZE ≤ argIdx + front.length + argN

/-- Only a sum that wraps around leads to a panic. -/
theorem wraps_of_panicked {argIdx : Nat} {commands : List (List Str)}
    (h : parseCommands args argIdx commands = .panicked) : Wraps args argIdx := by
  fun_induction parseCommands args argIdx commands with
  | case1 => cases h
  | case2 => cases h
  | case3 argIdx commands hidx argN hread hargN start stop hslice ih =>
      obtain ⟨front, blocks, header, rest, argN', htail, hfront, hread', hwraps⟩ := ih h
      obtain ⟨block, -, hcount, hne, hstop, hitems⟩ :=
        drop_eq_block hidx hread (fun h => hargN (.inl h)) hslice
      refine ⟨args.items[argIdx] :: (block ++ front), block :: blocks, header, rest, argN', ?_,
        .cons hcount hne hfront, hread', ?_⟩
      · rw [hitems, htail]
        simp
      · have hnext : stop = argIdx + (block.length + 1) := hstop
        simp only [List.length_cons, List.length_append]
        omega
  | case4 argIdx commands hidx argN hread hargN start stop hslice =>
      refine ⟨[], [], args.items[argIdx], args.items.drop (argIdx + 1), argN,
        List.drop_eq_getElem_cons hidx, .nil, hread, ?_⟩
      by_contra hlt
      have hbound := args.length_lt
      have hsum : wrappingAdd argIdx argN = argIdx + argN := wrappingAdd_eq (by simpa using hlt)
      have hstart : start = argIdx + 1 := wrappingAdd_eq (by omega)
      have hstop : stop = argIdx + 1 + argN := by
        rw [← hstart]
        exact wrappingAdd_eq (by omega)
      omega
  | case5 => cases h

/-- Every such sum leads to a panic. -/
theorem panicked_of_wraps {argIdx : Nat} (h : Wraps args argIdx) :
    parseCommands args argIdx [] = .panicked := by
  obtain ⟨front, blocks, header, rest, argN, hitems, hfront, hread, hwraps⟩ := h
  have hlength := congrArg List.length hitems
  simp only [List.length_drop, List.length_cons, List.length_append] at hlength
  have hbound := args.length_lt
  have hword := parseUsize_lt hread
  have hidx : argIdx + front.length < args.items.length := by omega
  have hheader : args.items[argIdx + front.length] = header := by
    have hdrop : args.items.drop (argIdx + front.length) = header :: rest := by
      rw [← List.drop_drop, hitems, List.drop_left]
    rw [List.drop_eq_getElem_cons hidx] at hdrop
    exact (List.cons.inj hdrop).1
  have hsum : wrappingAdd (argIdx + front.length) argN = argIdx + front.length + argN - USIZE :=
    wrappingAdd_wraps (by omega) hword hwraps
  have hstart : wrappingAdd (argIdx + front.length) 1 = argIdx + front.length + 1 :=
    wrappingAdd_eq (by omega)
  have hstop : wrappingAdd (argIdx + front.length + 1) argN =
      argIdx + front.length + 1 + argN - USIZE :=
    wrappingAdd_wraps (by omega) hword (by omega)
  rw [parseCommands_blocks hfront [] hitems, parseCommands]
  simp only [hidx, dif_pos, hheader, hread, hsum, hstart, hstop]
  rw [if_neg (by omega), dif_neg (by omega)]

end

/-- Written commands are read back. -/
theorem parseCommands_encode {args : Args} {commands : List (List Str)}
    (hcommands : ∀ command ∈ commands, command ≠ [])
    (htail : args.items.drop 2 = encodeBlocks decimal commands) :
    parseCommands args 2 [] = .accepted commands := by
  refine parseCommands_accepted (Library.blocks_encode fun command hcommand => ?_) htail
  have hlength : command.length < USIZE := by
    have hsub : command.length < (encodeBlocks decimal commands).length :=
      Library.length_lt_encodeBlocks hcommand
    have hbound := args.length_lt
    rw [← htail, List.length_drop] at hsub
    omega
  exact ⟨hcommands command hcommand, countOf_eq_some.mpr (parseUsize_decimal hlength)⟩

/-! ## Running -/

/-- What is to be done with the commands. -/
def plan (commands : List (List Str)) : List Event :=
  commands.dropLast.map .run ++ commands.getLast?.toList.map .exec

/-- The commands are run in order, all of them if they can be started. -/
theorem runCommands_plan (system : System) {commands : List (List Str)}
    (hcommands : ∀ command ∈ commands, command ≠ []) :
    (runCommands system commands).1 <+: plan commands ∧
      (runCommands system commands).2 ≠ .panicked ∧
        ((∀ command ∈ commands.dropLast, system.starts command = true) →
          (runCommands system commands).1 = plan commands) := by
  induction commands with
  | nil => exact ⟨List.prefix_refl _, by simp [runCommands], fun _ => rfl⟩
  | cons command commands ih =>
      obtain ⟨hcommand, hrest⟩ := List.forall_mem_cons.mp hcommands
      cases commands with
      | nil =>
          rw [runCommands, if_neg hcommand]
          split <;> simp [plan]
      | cons next commands =>
          obtain ⟨hpre, hpanic, hall⟩ := ih hrest
          have hplan : plan (command :: next :: commands) =
              .run command :: plan (next :: commands) := by
            simp [plan, List.getLast?_cons_cons]
          rw [runCommands, if_neg hcommand, hplan]
          · split
            next hstarts =>
              refine ⟨(List.prefix_cons_inj _).mpr hpre, hpanic, fun hstarted => ?_⟩
              have hothers : ∀ command ∈ (next :: commands).dropLast,
                  system.starts command = true := by
                intro other hother
                exact hstarted other (by simp [hother])
              exact congrArg (Event.run command :: ·) (hall hothers)
            next hfails =>
              refine ⟨by simp, by simp, fun hstarted => ?_⟩
              exact absurd (hstarted command (by simp)) hfails
          · simp

/-! ## The command line -/

/-- The process to wait for is given, and it is another one. -/
def WaitsFor (system : System) (args : Args) (pid : Int) : Prop :=
  ∃ arg, args.items[1]? = some arg ∧ parseI32 arg = .ok pid ∧ pid % 0x100000000 ≠ system.processId

/-- A command line of blocks is accepted: the restarter waits, and runs these commands in order.
Every other one is answered with an error, and nothing is done.  Written commands are read back. -/
structure ParsedExactly (system : System) (args : Args) : Prop where
  accepted : ∀ pid commands, WaitsFor system args pid →
    Blocks countOf (args.items.drop 2) commands →
      ∃ events outcome, processArgs system args = (.waitFor pid :: events, outcome) ∧
        events <+: plan commands ∧ outcome ≠ .panicked ∧
          (system.ends pid = true →
            (∀ command ∈ commands.dropLast, system.starts command = true) →
              events = plan commands)
  rejected : (∀ pid commands, WaitsFor system args pid →
      ¬ Blocks countOf (args.items.drop 2) commands) →
    ∃ error, processArgs system args = ([], .failed error)
  readBack : ∀ commands, (∀ command ∈ commands, command ≠ []) →
    args.items.drop 2 = encodeBlocks decimal commands →
      parseCommands args 2 [] = .accepted commands

section

variable {system : System} {args : Args}

/-- With a process to wait for, the commands are read. -/
theorem processArgs_of_waitsFor {pid : Int} (hpid : WaitsFor system args pid) :
    processArgs system args =
      match parseCommands args 2 [] with
      | .panicked => ([], .panicked)
      | .rejected error => ([], .failed error)
      | .accepted commands => waitAndRun system pid commands := by
  obtain ⟨arg, harg, hparse, hother⟩ := hpid
  unfold processArgs
  rw [harg]
  dsimp only
  rw [hparse]
  dsimp only
  rw [if_neg hother]

/-- Without a process to wait for, there is an error. -/
theorem processArgs_of_not_waitsFor (hlength : 4 ≤ args.items.length)
    (hpid : ∀ pid, ¬ WaitsFor system args pid) :
    ∃ error, processArgs system args = ([], .failed error) := by
  have harg : args.items[1]? = some args.items[1] := List.getElem?_eq_getElem (by omega)
  unfold processArgs
  rw [harg]
  dsimp only
  split
  next kind _ => exact ⟨_, rfl⟩
  next pid hparse =>
    split
    next => exact ⟨_, rfl⟩
    next hother => exact absurd ⟨_, harg, hparse, hother⟩ (hpid pid)

/-- The commands of blocks are not empty. -/
theorem ne_nil_of_mem_blocks {items : List Str} {commands : List (List Str)}
    (h : Blocks countOf items commands) : ∀ command ∈ commands, command ≠ [] := by
  induction h with
  | nil => simp
  | cons _ hblock _ ih => exact List.forall_mem_cons.mpr ⟨hblock, ih⟩

theorem waitAndRun_plan {pid : Int} {commands : List (List Str)}
    (hcommands : ∀ command ∈ commands, command ≠ []) :
    ∃ events outcome, waitAndRun system pid commands = (.waitFor pid :: events, outcome) ∧
      events <+: plan commands ∧ outcome ≠ .panicked ∧
        (system.ends pid = true →
          (∀ command ∈ commands.dropLast, system.starts command = true) →
            events = plan commands) := by
  obtain ⟨hpre, hpanic, hall⟩ := runCommands_plan system hcommands
  unfold waitAndRun
  split
  next => exact ⟨_, _, rfl, hpre, hpanic, fun _ => hall⟩
  next hends => exact ⟨[], _, rfl, List.nil_prefix, by simp, fun h => absurd h hends⟩

/-- The command line is parsed exactly when no position behind complete blocks and the number
there have a sum that wraps around. -/
theorem parsed_exactly_iff (hlength : 4 ≤ args.items.length) :
    ParsedExactly system args ↔ ((∃ pid, WaitsFor system args pid) → ¬ Wraps args 2) := by
  constructor
  · rintro hexact ⟨pid, hpid⟩ hwraps
    have hpanicked := panicked_of_wraps hwraps
    obtain ⟨error, herror⟩ := hexact.rejected fun _ commands _ hblocks => by
      rw [parseCommands_accepted hblocks rfl] at hpanicked
      cases hpanicked
    rw [processArgs_of_waitsFor hpid, hpanicked] at herror
    cases herror
  · intro hsafe
    refine ⟨?_, ?_, fun commands => parseCommands_encode⟩
    · intro pid commands hpid hblocks
      rw [processArgs_of_waitsFor hpid, parseCommands_accepted hblocks rfl]
      exact waitAndRun_plan (ne_nil_of_mem_blocks hblocks)
    · intro hnone
      by_cases hwaits : ∃ pid, WaitsFor system args pid
      · obtain ⟨pid, hpid⟩ := hwaits
        rw [processArgs_of_waitsFor hpid]
        cases hparsed : parseCommands args 2 [] with
        | accepted commands =>
            obtain ⟨blocks, hblocks, -⟩ := blocks_of_accepted hparsed
            exact absurd hblocks (hnone pid blocks hpid)
        | rejected error => exact ⟨error, rfl⟩
        | panicked => exact absurd (wraps_of_panicked hparsed) (hsafe ⟨pid, hpid⟩)
      · exact processArgs_of_not_waitsFor hlength (not_exists.mp hwaits)

end

/-- A system in which everything can be started. -/
def smallSystem : System where
  processId := 100
  ends _ := true
  starts _ := true

/-- One command with one argument. -/
def smallArgs : Args where
  items := [lit "restarter", lit "777777777", lit "2", lit "ls", lit "/opt"]
  length_lt := by decide

/-- The restarter waits, and no sum wraps around, so the command is run as it was given. -/
theorem parsed_exactly_iff_small :
    WaitsFor smallSystem smallArgs 777777777 ∧ ParsedExactly smallSystem smallArgs := by
  have haccepted : parseCommands smallArgs 2 [] ≠ .panicked := by
    decide +kernel
  refine ⟨⟨lit "777777777", rfl, by decide +kernel, by decide⟩, ?_⟩
  exact (parsed_exactly_iff (by decide)).mpr fun _ hwraps => haccepted (panicked_of_wraps hwraps)

/-- The greatest number that a machine word can be. -/
def greatestArgs : Args where
  items := [lit "restarter", lit "777777777", lit "18446744073709551615", lit "ls"]
  length_lt := by decide

/-- The greatest number makes the restarter panic. -/
theorem greatest_number_panics :
    ¬ ∀ (system : System) (args : Args), 4 ≤ args.items.length → ParsedExactly system args := by
  intro h
  have hexact := h smallSystem greatestArgs (by decide)
  have hread : parseUsize (lit "18446744073709551615") = .ok 18446744073709551615 := by
    decide +kernel
  have hwraps : Wraps greatestArgs 2 :=
    ⟨[], [], lit "18446744073709551615", [lit "ls"], 18446744073709551615, rfl, .nil, hread,
      by decide⟩
  have hpanicked := panicked_of_wraps hwraps
  have hpid : WaitsFor smallSystem greatestArgs 777777777 :=
    ⟨lit "777777777", rfl, by decide +kernel, by decide⟩
  obtain ⟨error, herror⟩ := hexact.rejected fun _ commands _ hblocks => by
    rw [parseCommands_accepted hblocks rfl] at hpanicked
    cases hpanicked
  rw [processArgs_of_waitsFor hpid, hpanicked] at herror
  cases herror

end Restarter
end IdeMultiarch
