import IdeMultiarch.Library.Descriptors
import IdeMultiarch.Pty.Pfind

/-!
# Pty - starting a program in a terminal

The function {lit}`exec_pty` of {lit}`exec_pty.c` starts a program whose standard descriptors are the
slave side of a terminal.  Here its child process is followed up to {lit}`execve`, by what the
numbers of its descriptors refer to; which calls of the kernel succeed is given from outside.

The working directory, the modes of the terminal and the handlers of signals are left out: they
change no descriptor.

Main results:

- Theorem {lit}`child_file`: what each descriptor of a started program refers to.
- Theorem {lit}`standard_descriptors_iff`: when a program gets its three standard descriptors.
- Theorem {lit}`nothing_leaks_iff`: when it gets no others.
- Theorem {lit}`exec_pty_returns_twice_iff`: when the child returns to the caller, as a second copy of
  it.
-/

namespace IdeMultiarch
namespace Pty

open Library (Descriptors)

/-! ## The model -/

def STDIN_FILENO : Nat := 0
def STDOUT_FILENO : Nat := 1
def STDERR_FILENO : Nat := 2

/-- What a descriptor refers to: the slave of the terminal, that of the terminal for errors, the
directory of the descriptors, or anything else that was open. -/
inductive File
  | slave
  | errSlave
  | directory
  | other (name : Nat)
deriving DecidableEq, Repr

/-- Which calls succeed in the child, and the limit for descriptors if it is known. -/
structure Kernel where
  setsid : Bool
  openSlave : Bool
  openErrSlave : Bool
  setpgid : Bool
  closeRange : Bool
  opendir : Bool
  openMax : Option Nat
  execve : Bool

/-- The arguments of {lit}`exec_pty` that have to do with descriptors.  A master for errors that is
negative is none. -/
structure Terminal where
  fdm : Nat
  err_fdm : Option Nat
  console : Bool

/-- The master for errors, if it is used. -/
def Terminal.errMaster (terminal : Terminal) : Option Nat :=
  if terminal.console then terminal.err_fdm else none

/-- {lit}`ptys_open` closes the master if the slave cannot be opened. -/
def ptys_open (works : Bool) (file : File) (fdm : Nat) (t : Descriptors File) :
    Option Nat × Descriptors File :=
  if works then (some (t.opens file).1, (t.opens file).2) else (none, t.close fdm)

/-- {lit}`close_all_fds_using_parsing`: what it returns is whether it works. -/
def close_all_fds_using_parsing (opendir : Bool) (from_fd_inclusive : Nat) (t : Descriptors File) :
    Bool × Descriptors File :=
  let lowest_fds_to_close := 2
  let t := t.closeAll ((List.range lowest_fds_to_close).map fun i => from_fd_inclusive + i)
  if opendir then
    let (dirfd, t) := t.opens .directory
    let t := t.closeAll (t.taken.filter fun fd =>
      from_fd_inclusive + lowest_fds_to_close ≤ fd ∧ fd ≠ dirfd)
    (true, t.close dirfd)
  else (false, t)

/-- {lit}`close_all_fds_fallback` -/
def close_all_fds_fallback (openMax : Option Nat) (from_fd_inclusive : Nat) (t : Descriptors File) :
    Descriptors File :=
  let fdlimit := openMax.getD 65535
  t.closeAll (List.range' from_fd_inclusive (fdlimit - from_fd_inclusive))

/-- {lit}`close_all_fds` -/
def close_all_fds (kernel : Kernel) (t : Descriptors File) : Descriptors File :=
  let from_fd := STDERR_FILENO + 1
  if kernel.closeRange then t.closeFrom from_fd
  else
    let parsed := close_all_fds_using_parsing kernel.opendir from_fd t
    if parsed.1 then parsed.2 else close_all_fds_fallback kernel.openMax from_fd parsed.2

/-- How the child ends: as the program, with an exit code, or by returning to the caller. -/
inductive Ending
  | executed (t : Descriptors File)
  | exited (code : Nat) (t : Descriptors File)
  | returned (value : Int) (t : Descriptors File)

/-- The slaves take the place of the standard descriptors, and all else is closed. -/
def redirect (kernel : Kernel) (fds : Nat) (err_fds : Option Nat) (t : Descriptors File) :
    Descriptors File :=
  let t := t.dup2 fds STDIN_FILENO
  let t := t.dup2 fds STDOUT_FILENO
  let t := t.dup2 (err_fds.getD fds) STDERR_FILENO
  let t := t.close fds
  let t := match err_fds with
    | some err_fds => t.close err_fds
    | none => t
  close_all_fds kernel t

/-- What the child does when its slaves are open. -/
def startProgram (kernel : Kernel) (terminal : Terminal) (fds : Nat) (err_fds : Option Nat)
    (t : Descriptors File) : Ending :=
  let t := t.close terminal.fdm
  let t := match terminal.errMaster with
    | some err_fdm => t.close err_fdm
    | none => t
  if terminal.console ∧ kernel.setpgid = false then .returned (-1) t
  else
    let t := redirect kernel fds err_fds t
    if kernel.execve then .executed t.exec else .exited 127 t

/-- The part of {lit}`exec_pty` that the child runs. -/
def child (kernel : Kernel) (terminal : Terminal) (t : Descriptors File) : Ending :=
  if terminal.console = false ∧ kernel.setsid = false then .returned (-1) t
  else
    match ptys_open kernel.openSlave .slave terminal.fdm t with
    | (none, t) => .returned (-1) t
    | (some fds, t) =>
        match terminal.errMaster with
        | none => startProgram kernel terminal fds none t
        | some err_fdm =>
            match ptys_open kernel.openErrSlave .errSlave err_fdm t with
            | (none, t) => .returned (-1) t
            | (some err_fds, t) => startProgram kernel terminal fds (some err_fds) t

/-- {lit}`exec_pty`: the value that the parent returns, and how the child ends if there is one. -/
def exec_pty (access : Bytes → Bool) (path : Option Bytes) (envp : Option (List Bytes))
    (getenv : Option Bytes) (fork : Option Nat) (kernel : Kernel) (terminal : Terminal)
    (t : Descriptors File) : Int × Option Ending :=
  match pfind access path envp getenv with
  | none => (-1, none)
  | some _ =>
      match fork with
      | none => (-1, none)
      | some childpid => (childpid, some (child kernel terminal t))

/-! ## Closing descriptors -/

/-- Which descriptors {lit}`close_all_fds` leaves: the lowest three, and from the limit on all others
if the open ones cannot be found. -/
def Kept (kernel : Kernel) (fd : Nat) : Prop :=
  fd < 3 ∨ (kernel.closeRange = false ∧ kernel.opendir = false ∧ kernel.openMax.getD 65535 ≤ fd ∧
    4 < fd)

instance (kernel : Kernel) (fd : Nat) : Decidable (Kept kernel fd) :=
  inferInstanceAs (Decidable (_ ∨ _))

section Closing

variable {kernel : Kernel} {terminal : Terminal} {t t' : Descriptors File} {fds fd : Nat}
variable {err_fds : Option Nat}

/-- The directory of the descriptors is read under a number that is closed again. -/
theorem file_close_all_fds_using_parsing (t : Descriptors File) (fd : Nat) :
    (close_all_fds_using_parsing true 3 t).2.file fd = if fd < 3 then t.file fd else none := by
  have hfirst : ∀ i, (t.closeAll [3, 4]).file i = if i ∈ [3, 4] then none else t.file i :=
    t.file_closeAll [3, 4]
  have hparsed : (close_all_fds_using_parsing true 3 t).2 =
      (((t.closeAll [3, 4]).set (t.closeAll [3, 4]).lowest (some .directory)).closeAll
        (((t.closeAll [3, 4]).set (t.closeAll [3, 4]).lowest (some .directory)).taken.filter
          fun fd => 3 + 2 ≤ fd ∧ fd ≠ (t.closeAll [3, 4]).lowest)).close
        (t.closeAll [3, 4]).lowest := rfl
  have hlowest := (t.closeAll [3, 4]).file_lowest
  rw [hparsed, Descriptors.file_close, Descriptors.file_closeAll]
  generalize (t.closeAll [3, 4]).lowest = dirfd at hlowest ⊢
  rw [hfirst] at hlowest
  by_cases hdir : fd = dirfd
  · rw [if_pos hdir]
    split
    next hstandard =>
      rw [← hdir, if_neg (by simp; omega)] at hlowest
      exact hlowest.symm
    next => rfl
  · rw [if_neg hdir, Descriptors.file_set, if_neg hdir, hfirst]
    simp only [List.mem_filter, Descriptors.mem_taken, Descriptors.file_set, if_neg hdir, hfirst]
    by_cases hstandard : fd < 3
    · rw [if_pos hstandard, if_neg (by simp; omega), if_neg (by simp; omega)]
    · rw [if_neg hstandard]
      by_cases hlow : fd ∈ [3, 4]
      · simp [hlow]
      · have hfive : 3 + 2 ≤ fd := by
          simp at hlow
          omega
        by_cases hopen : t.file fd = none
        · simp [hopen]
        · rw [if_pos (by simp [hlow, hopen, hfive, hdir])]

/-- What {lit}`close_all_fds` leaves. -/
theorem file_close_all_fds (kernel : Kernel) (t : Descriptors File) (fd : Nat) :
    (close_all_fds kernel t).file fd = if Kept kernel fd then t.file fd else none := by
  have hkept : Kept kernel fd ↔ fd < 3 ∨ (kernel.closeRange = false ∧ kernel.opendir = false ∧
      kernel.openMax.getD 65535 ≤ fd ∧ 4 < fd) := Iff.rfl
  simp only [hkept]
  unfold close_all_fds STDERR_FILENO
  dsimp only
  by_cases hrange : kernel.closeRange = true
  · rw [if_pos hrange, Descriptors.file_closeFrom]
    by_cases hfd : fd < 3
    · rw [if_neg (by omega), if_pos (Or.inl hfd)]
    · rw [if_pos (by omega), if_neg (by simp [hfd, hrange])]
  · rw [if_neg hrange]
    rw [Bool.not_eq_true] at hrange
    by_cases hdir : kernel.opendir = true
    · have hfound : (close_all_fds_using_parsing true (2 + 1) t).1 = true := rfl
      rw [hdir, if_pos hfound, file_close_all_fds_using_parsing]
      simp
    · rw [Bool.not_eq_true] at hdir
      have hparsed : close_all_fds_using_parsing false (2 + 1) t = (false, t.closeAll [3, 4]) := rfl
      have hlist : fd ∈ List.range' (2 + 1) (kernel.openMax.getD 65535 - (2 + 1)) ↔
          3 ≤ fd ∧ fd < kernel.openMax.getD 65535 := by
        rw [List.mem_range'_1]
        omega
      have hlow : fd ∈ [3, 4] ↔ fd = 3 ∨ fd = 4 := by simp
      rw [hdir, hparsed, if_neg Bool.false_ne_true]
      unfold close_all_fds_fallback
      dsimp only
      rw [Descriptors.file_closeAll, Descriptors.file_closeAll]
      simp only [hlist, hlow, hrange, true_and]
      by_cases hclosed : 3 ≤ fd ∧ fd < kernel.openMax.getD 65535
      · rw [if_pos hclosed, if_neg (by omega)]
      · rw [if_neg hclosed]
        by_cases hearly : fd = 3 ∨ fd = 4
        · rw [if_pos hearly, if_neg (by omega)]
        · rw [if_neg hearly, if_pos (by omega)]

/-- What stays open in {lit}`close_all_fds` keeps its flag. -/
theorem cloexec_close_all_fds (kernel : Kernel) (t : Descriptors File) (fd : Nat)
    (h : (close_all_fds kernel t).file fd ≠ none) :
    (close_all_fds kernel t).cloexec fd = t.cloexec fd := by
  have hkept : Kept kernel fd := by
    rw [file_close_all_fds] at h
    by_contra hnot
    exact h (if_neg hnot)
  have hopen : t.file fd ≠ none := by
    rw [file_close_all_fds, if_pos hkept] at h
    exact h
  have hlow : fd ∉ [3, 4] := by
    rcases hkept with hlow | ⟨-, -, -, hhigh⟩
    · simp
      omega
    · simp
      omega
  unfold close_all_fds STDERR_FILENO at h ⊢
  dsimp only at h ⊢
  by_cases hrange : kernel.closeRange = true
  · rw [if_pos hrange]
    rfl
  · rw [if_neg hrange] at h ⊢
    have hfirst : (t.closeAll [3, 4]).file fd = t.file fd := by
      rw [Descriptors.file_closeAll, if_neg hlow]
    have hfirst' := Descriptors.cloexec_closeAll t [3, 4] fd hlow
    cases hdir : kernel.opendir with
    | true =>
        rw [hdir] at h
        have hparsed : close_all_fds_using_parsing true (2 + 1) t = (true,
            (((t.closeAll [3, 4]).set (t.closeAll [3, 4]).lowest (some .directory)).closeAll
              (((t.closeAll [3, 4]).set (t.closeAll [3, 4]).lowest (some .directory)).taken.filter
                fun fd => 3 + 2 ≤ fd ∧ fd ≠ (t.closeAll [3, 4]).lowest)).close
              (t.closeAll [3, 4]).lowest) := rfl
        have hne : fd ≠ (t.closeAll [3, 4]).lowest := by
          rintro heq
          have hfree := (t.closeAll [3, 4]).file_lowest
          rw [← heq, hfirst] at hfree
          exact hopen hfree
        rw [hparsed, if_pos rfl, Descriptors.file_close, if_neg hne, Descriptors.file_closeAll] at h
        rw [hparsed, if_pos rfl, Descriptors.close, Descriptors.cloexec_set, if_neg hne,
          Descriptors.cloexec_closeAll _ _ _ fun hmem => h (if_pos hmem), Descriptors.cloexec_set,
          if_neg hne, hfirst']
    | false =>
        rw [hdir] at h
        have hparsed : close_all_fds_using_parsing false (2 + 1) t = (false, t.closeAll [3, 4]) := rfl
        rw [hparsed, if_neg Bool.false_ne_true] at h ⊢
        unfold close_all_fds_fallback at h ⊢
        dsimp only at h ⊢
        rw [Descriptors.file_closeAll] at h
        rw [Descriptors.cloexec_closeAll _ _ _ fun hmem => h (if_pos hmem), hfirst']

/-! ## What a program gets -/

/-- What the standard descriptors of a program refer to, when the numbers of the slaves are known:
the slave for errors is lost if its number is taken for the other one. -/
def slaveFor (err_fds : Option Nat) (fd : Nat) : File :=
  if fd = 2 ∧ err_fds.any (fun err_fds => 1 < err_fds) then .errSlave else .slave

/-- The copies of the slaves. -/
def copied (fds : Nat) (err_fds : Option Nat) (t : Descriptors File) : Descriptors File :=
  ((t.dup2 fds 0).dup2 fds 1).dup2 (err_fds.getD fds) 2

/-- The slaves are closed under the numbers under which they were opened. -/
def uncopied (fds : Nat) (err_fds : Option Nat) (t : Descriptors File) : Descriptors File :=
  match err_fds with
  | some err_fds => (t.close fds).close err_fds
  | none => t.close fds

theorem redirect_eq (kernel : Kernel) (fds : Nat) (err_fds : Option Nat) (t : Descriptors File) :
    redirect kernel fds err_fds t =
      close_all_fds kernel (uncopied fds err_fds (copied fds err_fds t)) := by
  cases err_fds <;> rfl

theorem uncopied_of_ne (hgone : ¬ (fd = fds ∨ err_fds = some fd)) (t : Descriptors File) :
    (uncopied fds err_fds t).file fd = t.file fd ∧
      (uncopied fds err_fds t).cloexec fd = t.cloexec fd := by
  obtain ⟨hfds, herr⟩ := not_or.mp hgone
  unfold uncopied Descriptors.close
  cases err_fds with
  | none => simp [Descriptors.file_set, Descriptors.cloexec_set, hfds]
  | some e =>
      have hne : fd ≠ e := fun heq => herr (congrArg some heq.symm)
      simp [Descriptors.file_set, Descriptors.cloexec_set, hfds, hne]

theorem uncopied_gone (hgone : fd = fds ∨ err_fds = some fd) (t : Descriptors File) :
    (uncopied fds err_fds t).file fd = none := by
  unfold uncopied
  cases err_fds with
  | none =>
      have hfds : fd = fds := by simpa using hgone
      rw [Descriptors.file_close, if_pos hfds]
  | some e =>
      dsimp only
      rw [Descriptors.file_close, Descriptors.file_close]
      rcases hgone with hfds | herr
      · rw [if_pos hfds, ite_self]
      · rw [if_pos (Option.some.inj herr).symm]

/-- The slave, and then the slave for errors, under the numbers that are copied. -/
theorem file_before_copies (hfds : t.file fds = some .slave)
    (herr : ∀ e, err_fds = some e → t.file e = some .errSlave) :
    (t.dup2 fds 0).file fds = some .slave ∧
      ((t.dup2 fds 0).dup2 fds 1).file (err_fds.getD fds) = some (slaveFor err_fds 2) := by
  have hin : ∀ i, (t.dup2 fds 0).file i = if i = 0 then some .slave else t.file i :=
    Descriptors.file_dup2 hfds
  have hkept : (t.dup2 fds 0).file fds = some .slave := by
    rw [hin, hfds, ite_self]
  refine ⟨hkept, ?_⟩
  rw [Descriptors.file_dup2 hkept, hin]
  cases err_fds with
  | none =>
      rw [Option.getD_none, hfds, ite_self, ite_self]
      rfl
  | some e =>
      rw [Option.getD_some, herr e rfl]
      unfold slaveFor
      by_cases hzero : e = 0
      · simp [hzero]
      · by_cases hone : e = 1
        · simp [hone]
        · rw [if_neg hone, if_neg hzero, if_pos (by simp; omega)]

theorem file_copied (hfds : t.file fds = some .slave)
    (herr : ∀ e, err_fds = some e → t.file e = some .errSlave) (fd : Nat) :
    (copied fds err_fds t).file fd = if fd < 3 then some (slaveFor err_fds fd) else t.file fd := by
  obtain ⟨hkept, hlast⟩ := file_before_copies hfds herr
  unfold copied
  rw [Descriptors.file_dup2 hlast, Descriptors.file_dup2 hkept, Descriptors.file_dup2 hfds]
  by_cases h2 : fd = 2
  · simp [h2]
  · have hslave : slaveFor err_fds fd = .slave := if_neg fun h => h2 h.1
    rw [if_neg h2, hslave]
    by_cases h1 : fd = 1
    · simp [h1]
    · by_cases h0 : fd = 0
      · simp [h0]
      · rw [if_neg h1, if_neg h0, if_neg (by omega)]

/-- A copy has no flag, and all else keeps its own. -/
theorem cloexec_copied (hfds : t.file fds = some .slave)
    (herr : ∀ e, err_fds = some e → t.file e = some .errSlave)
    (hgone : ¬ (fd = fds ∨ err_fds = some fd)) :
    (copied fds err_fds t).cloexec fd = if fd < 3 then false else t.cloexec fd := by
  obtain ⟨hkept, hlast⟩ := file_before_copies hfds herr
  obtain ⟨hnfds, hnerr⟩ := not_or.mp hgone
  have hother : fd ≠ err_fds.getD fds := by
    cases err_fds with
    | none => exact hnfds
    | some e => exact fun heq => hnerr (congrArg some heq.symm)
  unfold copied
  rw [Descriptors.cloexec_dup2 hlast, Descriptors.cloexec_dup2 hkept,
    Descriptors.cloexec_dup2 hfds]
  by_cases h2 : fd = 2
  · rw [if_pos ⟨h2, fun heq => hother (by omega)⟩, if_pos (by omega)]
  · rw [if_neg fun h => h2 h.1]
    by_cases h1 : fd = 1
    · rw [if_pos ⟨h1, fun heq => hnfds (by omega)⟩, if_pos (by omega)]
    · rw [if_neg fun h => h1 h.1]
      by_cases h0 : fd = 0
      · rw [if_pos ⟨h0, fun heq => hnfds (by omega)⟩, if_pos (by omega)]
      · rw [if_neg fun h => h0 h.1, if_neg (by omega)]

/-- What {lit}`redirect` leaves: the numbers under which the slaves were opened are closed, even where
they are standard ones. -/
theorem file_redirect (kernel : Kernel) (hfds : t.file fds = some .slave)
    (herr : ∀ e, err_fds = some e → t.file e = some .errSlave) (fd : Nat) :
    (redirect kernel fds err_fds t).file fd =
      if fd = fds ∨ err_fds = some fd then none
      else if fd < 3 then some (slaveFor err_fds fd)
      else if Kept kernel fd then t.file fd else none := by
  have hkept : fd < 3 → Kept kernel fd := Or.inl
  rw [redirect_eq, file_close_all_fds]
  by_cases hgone : fd = fds ∨ err_fds = some fd
  · rw [if_pos hgone, uncopied_gone hgone, ite_self]
  · rw [if_neg hgone, (uncopied_of_ne hgone _).1, file_copied hfds herr]
    by_cases hstandard : fd < 3
    · rw [if_pos (hkept hstandard), if_pos hstandard, if_pos hstandard]
    · rw [if_neg hstandard, if_neg hstandard]

/-- The flags that {lit}`redirect` leaves. -/
theorem cloexec_redirect (kernel : Kernel) (hfds : t.file fds = some .slave)
    (herr : ∀ e, err_fds = some e → t.file e = some .errSlave)
    (hgone : ¬ (fd = fds ∨ err_fds = some fd))
    (hopen : (redirect kernel fds err_fds t).file fd ≠ none) :
    (redirect kernel fds err_fds t).cloexec fd = if fd < 3 then false else t.cloexec fd := by
  rw [redirect_eq] at hopen ⊢
  rw [cloexec_close_all_fds kernel _ fd hopen, (uncopied_of_ne hgone _).2,
    cloexec_copied hfds herr hgone]

/-- What a program gets after {lit}`redirect`: the copies have no flag. -/
theorem file_redirect_exec (kernel : Kernel) (hfds : t.file fds = some .slave)
    (herr : ∀ e, err_fds = some e → t.file e = some .errSlave) (fd : Nat) :
    (redirect kernel fds err_fds t).exec.file fd =
      if fd = fds ∨ err_fds = some fd then none
      else if fd < 3 then some (slaveFor err_fds fd)
      else if Kept kernel fd ∧ t.cloexec fd = false then t.file fd else none := by
  have hfile := file_redirect kernel hfds herr fd
  rw [Descriptors.file_exec, hfile]
  by_cases hgone : fd = fds ∨ err_fds = some fd
  · rw [if_pos hgone, if_pos hgone, ite_self]
  · rw [if_neg hgone] at hfile
    rw [if_neg hgone, if_neg hgone]
    by_cases hopen : (redirect kernel fds err_fds t).file fd = none
    · rw [hfile] at hopen
      by_cases hstandard : fd < 3
      · rw [if_pos hstandard] at hopen
        cases hopen
      · rw [if_neg hstandard] at hopen ⊢
        rw [if_neg hstandard, hopen, ite_self]
        split
        next hkept =>
          rw [if_pos hkept.1] at hopen
          exact hopen.symm
        next => rfl
    · have hflag := cloexec_redirect kernel hfds herr hgone hopen
      rw [hflag]
      by_cases hstandard : fd < 3
      · simp [hstandard]
      · simp only [if_neg hstandard]
        by_cases hkept : Kept kernel fd
        · cases t.cloexec fd <;> simp [hkept]
        · simp [hkept]

/-- The masters are open, so the slaves get other numbers. -/
structure Terminal.Open (terminal : Terminal) (t : Descriptors File) : Prop where
  fdm : t.file terminal.fdm ≠ none
  err_fdm : ∀ err_fdm, terminal.errMaster = some err_fdm → t.file err_fdm ≠ none

/-- The number of the slave for errors. -/
def errNumber (terminal : Terminal) (t : Descriptors File) : Option Nat :=
  terminal.errMaster.map fun _ => (t.set t.lowest (some .slave)).lowest

/-- What each descriptor of a started program refers to. -/
def startedFile (kernel : Kernel) (terminal : Terminal) (t : Descriptors File) (fd : Nat) :
    Option File :=
  if fd = t.lowest ∨ errNumber terminal t = some fd then none
  else if fd < 3 then some (slaveFor (errNumber terminal t) fd)
  else if fd = terminal.fdm ∨ terminal.errMaster = some fd then none
  else if Kept kernel fd ∧ t.cloexec fd = false then t.file fd else none

/-- A program is started with what {lit}`redirect` leaves. -/
theorem startProgram_executed (h : startProgram kernel terminal fds err_fds t = .executed t') :
    t' = (redirect kernel fds err_fds (match terminal.errMaster with
      | some err_fdm => (t.close terminal.fdm).close err_fdm
      | none => t.close terminal.fdm)).exec := by
  unfold startProgram at h
  dsimp only at h
  split at h
  · cases h
  · split at h
    · cases h
      rfl
    · cases h

/-- The table when the slaves are open and the masters are closed. -/
def slavesOpen (terminal : Terminal) (t : Descriptors File) : Descriptors File :=
  let opened := t.set t.lowest (some .slave)
  match terminal.errMaster with
  | none => opened.close terminal.fdm
  | some err_fdm =>
      ((opened.set opened.lowest (some .errSlave)).close terminal.fdm).close err_fdm

/-- A child that starts its program has opened the slaves. -/
theorem child_executed (h : child kernel terminal t = .executed t') :
    t' = (redirect kernel t.lowest (errNumber terminal t) (slavesOpen terminal t)).exec := by
  unfold child ptys_open at h
  split at h
  · cases h
  · cases hslave : kernel.openSlave with
    | false =>
        rw [hslave] at h
        cases h
    | true =>
        rw [hslave, if_pos rfl] at h
        dsimp only [Descriptors.opens] at h
        unfold slavesOpen errNumber
        cases herr : terminal.errMaster with
        | none =>
            rw [herr] at h
            have hprogram := startProgram_executed h
            rw [herr] at hprogram
            exact hprogram
        | some err_fdm =>
            rw [herr] at h
            dsimp only at h
            cases herrSlave : kernel.openErrSlave with
            | false =>
                rw [herrSlave] at h
                cases h
            | true =>
                rw [herrSlave, if_pos rfl] at h
                have hprogram := startProgram_executed h
                rw [herr] at hprogram
                exact hprogram

/-- The slave for errors gets a number of its own. -/
theorem Terminal.Open.errNumber_ne (hopen : terminal.Open t) {e : Nat}
    (he : errNumber terminal t = some e) :
    e ≠ t.lowest ∧ e ≠ terminal.fdm ∧ terminal.errMaster ≠ some e := by
  have hstill : ∀ i, (t.set t.lowest (some .slave)).file i ≠ none → e ≠ i := by
    intro i hi
    unfold errNumber at he
    obtain ⟨_, -, rfl⟩ := Option.map_eq_some_iff.mp he
    exact Descriptors.lowest_ne hi
  have hold : ∀ i, t.file i ≠ none → e ≠ i := by
    intro i hi
    refine hstill i ?_
    rw [Descriptors.file_set, if_neg (t.lowest_ne hi).symm]
    exact hi
  refine ⟨hstill t.lowest ?_, hold terminal.fdm hopen.fdm, fun hmaster => ?_⟩
  · rw [Descriptors.file_set, if_pos rfl]
    exact Option.some_ne_none _
  · exact hold e (hopen.err_fdm e hmaster) rfl

/-- What is open when the masters are closed. -/
theorem file_slavesOpen (fd : Nat) :
    (slavesOpen terminal t).file fd =
      if fd = terminal.fdm ∨ terminal.errMaster = some fd then none
      else if errNumber terminal t = some fd then some .errSlave
      else if fd = t.lowest then some .slave else t.file fd := by
  unfold slavesOpen errNumber
  cases terminal.errMaster with
  | none => simp [Descriptors.file_close, Descriptors.file_set]
  | some err_fdm =>
      dsimp only
      rw [Descriptors.file_close, Descriptors.file_close, Descriptors.file_set,
        Descriptors.file_set, Option.map_some]
      by_cases herr : fd = err_fdm
      · rw [if_pos herr, if_pos (Or.inr (congrArg some herr.symm))]
      · have hmaster : some err_fdm ≠ some fd := fun heq => herr (Option.some.inj heq).symm
        by_cases hfd : fd = terminal.fdm
        · rw [if_neg herr, if_pos hfd, if_pos (Or.inl hfd)]
        · rw [if_neg herr, if_neg hfd, if_neg (not_or.mpr ⟨hfd, hmaster⟩)]
          exact if_congr ⟨fun heq => congrArg some heq.symm, fun heq => (Option.some.inj heq).symm⟩
            rfl rfl

/-- All other descriptors keep their flags. -/
theorem cloexec_slavesOpen {fd : Nat} (hmaster : ¬ (fd = terminal.fdm ∨ terminal.errMaster = some fd))
    (hslave : ¬ (fd = t.lowest ∨ errNumber terminal t = some fd)) :
    (slavesOpen terminal t).cloexec fd = t.cloexec fd := by
  obtain ⟨hfdm, herr⟩ := not_or.mp hmaster
  obtain ⟨hlowest, hnumber⟩ := not_or.mp hslave
  unfold slavesOpen
  unfold errNumber at hnumber
  cases hcase : terminal.errMaster with
  | none =>
      dsimp only
      rw [Descriptors.close, Descriptors.cloexec_set, if_neg hfdm, Descriptors.cloexec_set,
        if_neg hlowest]
  | some err_fdm =>
      rw [hcase] at herr hnumber
      have herrfd : fd ≠ err_fdm := fun heq => herr (congrArg some heq.symm)
      have hne : fd ≠ (t.set t.lowest (some File.slave)).lowest :=
        fun heq => hnumber (congrArg some heq.symm)
      dsimp only
      rw [Descriptors.close, Descriptors.cloexec_set, if_neg herrfd, Descriptors.close,
        Descriptors.cloexec_set, if_neg hfdm, Descriptors.cloexec_set, if_neg hne,
        Descriptors.cloexec_set, if_neg hlowest]

/-- What each descriptor of a started program refers to. -/
theorem child_file (hopen : terminal.Open t) (h : child kernel terminal t = .executed t')
    (fd : Nat) : t'.file fd = startedFile kernel terminal t fd := by
  have hlowest : ¬ (t.lowest = terminal.fdm ∨ terminal.errMaster = some t.lowest) := by
    rintro (hfdm | herr)
    · exact t.lowest_ne hopen.fdm hfdm
    · exact t.lowest_ne (hopen.err_fdm _ herr) rfl
  have hfds : (slavesOpen terminal t).file t.lowest = some .slave := by
    rw [file_slavesOpen, if_neg hlowest, if_neg fun he => (hopen.errNumber_ne he).1 rfl,
      if_pos rfl]
  have herr : ∀ e, errNumber terminal t = some e →
      (slavesOpen terminal t).file e = some .errSlave := by
    intro e he
    obtain ⟨-, hfdm, hmaster⟩ := hopen.errNumber_ne he
    rw [file_slavesOpen, if_neg (not_or.mpr ⟨hfdm, hmaster⟩), if_pos he]
  rw [child_executed h, file_redirect_exec kernel hfds herr, startedFile]
  by_cases hslave : fd = t.lowest ∨ errNumber terminal t = some fd
  · rw [if_pos hslave, if_pos hslave]
  · rw [if_neg hslave, if_neg hslave]
    by_cases hstandard : fd < 3
    · rw [if_pos hstandard, if_pos hstandard]
    · rw [if_neg hstandard, if_neg hstandard, file_slavesOpen]
      by_cases hmaster : fd = terminal.fdm ∨ terminal.errMaster = some fd
      · simp only [if_pos hmaster, ite_self]
      · obtain ⟨hne, hnumber⟩ := not_or.mp hslave
        rw [if_neg hmaster, if_neg hmaster, if_neg hnumber, if_neg hne,
          cloexec_slavesOpen hmaster hslave]

end Closing

/-! ## What a program needs, and what it should not get -/

/-- What a standard descriptor of a program should refer to. -/
def Terminal.standard (terminal : Terminal) (fd : Nat) : File :=
  if fd = 2 ∧ terminal.errMaster ≠ none then .errSlave else .slave

/-- The child runs until it is another program. -/
def Starts (kernel : Kernel) (terminal : Terminal) (t t' : Descriptors File) : Prop :=
  child kernel terminal t = .executed t'

/-- The slaves are opened under numbers that are free. -/
theorem file_errNumber {terminal : Terminal} {t : Descriptors File} {e : Nat}
    (h : errNumber terminal t = some e) : t.file e = none := by
  unfold errNumber at h
  obtain ⟨err_fdm, -, rfl⟩ := Option.map_eq_some_iff.mp h
  have hfree := (t.set t.lowest (some .slave)).file_lowest
  rw [Descriptors.file_set] at hfree
  split at hfree
  · cases hfree
  · exact hfree

/-- A program that is started got a number for its slave, the lowest one that was free. -/
theorem Starts.slave {kernel : Kernel} {terminal : Terminal} {t t' : Descriptors File}
    (h : Starts kernel terminal t t') :
    (ptys_open kernel.openSlave .slave terminal.fdm t).1 = some t.lowest := by
  unfold Starts child at h
  split at h
  · cases h
  · unfold ptys_open at h ⊢
    cases hslave : kernel.openSlave with
    | true => rfl
    | false =>
        rw [hslave] at h
        cases h

/-- Under standard numbers that were open, a program has its slaves. -/
theorem file_standard {kernel : Kernel} {terminal : Terminal} {t t' : Descriptors File}
    (hopen : terminal.Open t) (h : Starts kernel terminal t t')
    (htaken : ∀ fd < 3, t.file fd ≠ none) {fd : Nat} (hfd : fd < 3) :
    t'.file fd = some (terminal.standard fd) := by
  have hhigh : ∀ i < 3, i ≠ t.lowest := by
    rintro i hi rfl
    exact htaken t.lowest hi t.file_lowest
  have hfirst : 2 < t.lowest := by
    have h0 := hhigh 0 (by decide)
    have h1 := hhigh 1 (by decide)
    have h2 := hhigh 2 (by decide)
    omega
  have herr : ∀ e, errNumber terminal t = some e → 2 < e := by
    intro e he
    by_contra hlow
    exact htaken e (by omega) (file_errNumber he)
  have hnot : ¬ (fd = t.lowest ∨ errNumber terminal t = some fd) := by
    rintro (hfds | herrfds)
    · exact hhigh fd hfd hfds
    · have hlt := herr fd herrfds
      omega
  rw [child_file hopen h, startedFile, if_neg hnot, if_pos hfd]
  unfold slaveFor Terminal.standard
  by_cases hused : terminal.errMaster = none
  · have hnone : errNumber terminal t = none := by
      unfold errNumber
      rw [hused]
      rfl
    simp [hnone, hused]
  · obtain ⟨err_fdm, hsome⟩ := Option.ne_none_iff_exists'.mp hused
    have hnumber : errNumber terminal t = some (t.set t.lowest (some .slave)).lowest := by
      unfold errNumber
      rw [hsome]
      rfl
    have hgreat := herr _ hnumber
    have hany : (errNumber terminal t).any (fun err_fds => 1 < err_fds) = true := by
      rw [hnumber]
      exact decide_eq_true (by omega)
    simp [hany, hused]

/-- A program gets its three standard descriptors exactly if all three are open in the process that
starts it: otherwise the slave is opened under one of these numbers, and closed there. -/
theorem standard_descriptors_iff (kernel : Kernel) (terminal : Terminal) (t t' : Descriptors File)
    (hopen : terminal.Open t) (h : Starts kernel terminal t t') :
    ((∀ fd < 3, t'.file fd = some (terminal.standard fd)) ↔ ∀ fd < 3, t.file fd ≠ none) ∧
      ((∃ fd < 3, t.file fd = none) →
        ∃ fds < 3, (ptys_open kernel.openSlave .slave terminal.fdm t).1 = some fds ∧
          t'.file fds = none) := by
  have hlost : t'.file t.lowest = none := by
    rw [child_file hopen h, startedFile, if_pos (Or.inl rfl)]
  have hlow : ∀ fd < 3, t.file fd = none → t.lowest < 3 := by
    intro fd hfd hfree
    by_contra hhigh
    exact Descriptors.file_of_lt_lowest (by omega : fd < t.lowest) hfree
  refine ⟨⟨?_, fun htaken fd hfd => file_standard hopen h htaken hfd⟩, ?_⟩
  · intro hstandard fd hfd hfree
    rw [hstandard t.lowest (hlow fd hfd hfree)] at hlost
    cases hlost
  · rintro ⟨fd, hfd, hfree⟩
    exact ⟨t.lowest, hlow fd hfd hfree, h.slave, hlost⟩

/-- A program gets no other descriptors exactly if the open ones can be found, or if those from the
limit on are the masters or have the flag {lit}`FD_CLOEXEC`. -/
theorem nothing_leaks_iff (kernel : Kernel) (terminal : Terminal) (t t' : Descriptors File)
    (hopen : terminal.Open t) (h : Starts kernel terminal t t') :
    (∀ fd, 3 ≤ fd → t'.file fd = none) ↔
      kernel.closeRange = true ∨ kernel.opendir = true ∨
        ∀ fd, kernel.openMax.getD 65535 ≤ fd → 4 < fd → t.file fd ≠ none →
          t.cloexec fd = true ∨ fd = terminal.fdm ∨ terminal.errMaster = some fd := by
  have hfile : ∀ fd, 3 ≤ fd → t'.file fd = if fd = terminal.fdm ∨ terminal.errMaster = some fd then
      none else if Kept kernel fd ∧ t.cloexec fd = false then t.file fd else none := by
    intro fd hfd
    rw [child_file hopen h, startedFile, if_neg (by omega : ¬ fd < 3)]
    split
    next hslave =>
      have hfree : t.file fd = none := by
        rcases hslave with rfl | herr
        · exact t.file_lowest
        · exact file_errNumber herr
      rw [hfree, ite_self, ite_self]
    next => rfl
  constructor
  · intro hnone
    by_contra hnot
    obtain ⟨hrange, hrest⟩ := not_or.mp hnot
    obtain ⟨hdir, hleft⟩ := not_or.mp hrest
    apply hleft
    intro fd hlimit hfd htaken
    by_contra hheld
    obtain ⟨hflag, hmaster⟩ := not_or.mp hheld
    have hkept : Kept kernel fd := Or.inr ⟨Bool.eq_false_iff.mpr hrange,
      Bool.eq_false_iff.mpr hdir, hlimit, hfd⟩
    have hgone := hnone fd (by omega)
    rw [hfile fd (by omega), if_neg hmaster, if_pos ⟨hkept, Bool.eq_false_iff.mpr hflag⟩] at hgone
    exact htaken hgone
  · intro hclosed fd hfd
    rw [hfile fd hfd]
    split
    · rfl
    next hmaster =>
      split
      next hkept =>
        obtain ⟨hlow | ⟨hrange, hdir, hlimit, hhigh⟩, hflag⟩ := hkept
        · omega
        · rcases hclosed with htrue | htrue | hleft
          · rw [hrange] at htrue
            cases htrue
          · rw [hdir] at htrue
            cases htrue
          · by_contra htaken
            rcases hleft fd hlimit hhigh htaken with hset | hheld
            · rw [hflag] at hset
              cases hset
            · exact hmaster hheld
      next => rfl

/-- A child whose slaves are open returns if it cannot lead a group. -/
theorem startProgram_returned (kernel : Kernel) (terminal : Terminal) (fds : Nat)
    (err_fds : Option Nat) (t : Descriptors File) :
    ((∃ value t', startProgram kernel terminal fds err_fds t = .returned value t') ↔
      terminal.console = true ∧ kernel.setpgid = false) ∧
      ∀ value t', startProgram kernel terminal fds err_fds t = .returned value t' →
        value = -1 ∧ ∀ fd, fd ≠ terminal.fdm → terminal.errMaster ≠ some fd →
          t'.file fd = t.file fd := by
  unfold startProgram
  dsimp only
  split
  next hfailed =>
    refine ⟨⟨fun _ => hfailed, fun _ => ⟨_, _, rfl⟩⟩, ?_⟩
    rintro value t' hreturned
    cases hreturned
    refine ⟨rfl, fun fd hfdm herr => ?_⟩
    split
    next err_fdm hsome =>
      have hne : fd ≠ err_fdm := fun heq => herr (heq ▸ hsome)
      rw [Descriptors.file_close, Descriptors.file_close, if_neg hne, if_neg hfdm]
    next => rw [Descriptors.file_close, if_neg hfdm]
  next hfine =>
    have hnever : ∀ value t', (if kernel.execve = true then
        Ending.executed (redirect kernel fds err_fds (match terminal.errMaster with
          | some err_fdm => (t.close terminal.fdm).close err_fdm
          | none => t.close terminal.fdm)).exec
        else Ending.exited 127 (redirect kernel fds err_fds (match terminal.errMaster with
          | some err_fdm => (t.close terminal.fdm).close err_fdm
          | none => t.close terminal.fdm))) ≠ Ending.returned value t' := by
      intro value t'
      split
      · exact Ending.noConfusion
      · exact Ending.noConfusion
    refine ⟨⟨?_, fun hfailed => absurd hfailed hfine⟩, fun value t' hreturned => ?_⟩
    · rintro ⟨value, t', hreturned⟩
      exact absurd hreturned (hnever value t')
    · exact absurd hreturned (hnever value t')

/-- When the child returns to its caller, and what is left then. -/
theorem child_returned (kernel : Kernel) (terminal : Terminal) (t : Descriptors File) :
    ((∃ value t', child kernel terminal t = .returned value t') ↔
      (terminal.console = false ∧ kernel.setsid = false) ∨ kernel.openSlave = false ∨
        (terminal.errMaster ≠ none ∧ kernel.openErrSlave = false) ∨
        (terminal.console = true ∧ kernel.setpgid = false)) ∧
      ∀ value t', child kernel terminal t = .returned value t' →
        value = -1 ∧ ∀ fd, fd ≠ terminal.fdm → terminal.errMaster ≠ some fd →
          t.file fd ≠ none → t'.file fd = t.file fd := by
  have hset : ∀ (u : Descriptors File) (file : File) (fd : Nat), u.file fd ≠ none →
      (u.set u.lowest (some file)).file fd = u.file fd := by
    intro u file fd htaken
    rw [Descriptors.file_set, if_neg (u.lowest_ne htaken).symm]
  unfold child ptys_open
  split
  next hsession =>
    refine ⟨⟨fun _ => Or.inl hsession, fun _ => ⟨_, _, rfl⟩⟩, ?_⟩
    rintro value t' hreturned
    cases hreturned
    exact ⟨rfl, fun fd _ _ _ => rfl⟩
  next hsession =>
    cases hslave : kernel.openSlave with
    | false =>
        refine ⟨⟨fun _ => Or.inr (Or.inl rfl), fun _ => ⟨_, _, rfl⟩⟩, ?_⟩
        rintro value t' hreturned
        cases hreturned
        refine ⟨rfl, fun fd hfdm _ _ => ?_⟩
        rw [Descriptors.file_close, if_neg hfdm]
    | true =>
        rw [if_pos rfl]
        dsimp only [Descriptors.opens]
        cases herr : terminal.errMaster with
        | none =>
            obtain ⟨hiff, hleft⟩ := startProgram_returned kernel terminal t.lowest none
              (t.set t.lowest (some .slave))
            rw [herr] at hleft
            refine ⟨?_, fun value t' hreturned => ?_⟩
            · simpa [hsession] using hiff
            · obtain ⟨hvalue, hfile⟩ := hleft value t' hreturned
              refine ⟨hvalue, fun fd hfdm hmaster htaken => ?_⟩
              rw [hfile fd hfdm hmaster, hset t .slave fd htaken]
        | some err_fdm =>
            dsimp only
            cases herrSlave : kernel.openErrSlave with
            | false =>
                refine ⟨⟨fun _ => Or.inr (Or.inr (Or.inl ⟨Option.some_ne_none _, rfl⟩)),
                  fun _ => ⟨_, _, rfl⟩⟩, ?_⟩
                rintro value t' hreturned
                cases hreturned
                refine ⟨rfl, fun fd _ hmaster htaken => ?_⟩
                have hne : fd ≠ err_fdm := fun heq => hmaster (congrArg some heq.symm)
                rw [Descriptors.file_close, if_neg hne, hset t .slave fd htaken]
            | true =>
                obtain ⟨hiff, hleft⟩ := startProgram_returned kernel terminal t.lowest
                  (some (t.set t.lowest (some .slave)).lowest)
                  ((t.set t.lowest (some .slave)).set (t.set t.lowest (some .slave)).lowest
                    (some .errSlave))
                rw [herr] at hleft
                rw [if_pos rfl]
                refine ⟨?_, fun value t' hreturned => ?_⟩
                · simpa [hsession] using hiff
                · obtain ⟨hvalue, hfile⟩ := hleft value t' hreturned
                  refine ⟨hvalue, fun fd hfdm hmaster htaken => ?_⟩
                  have hfirst := hset t .slave fd htaken
                  rw [hfile fd hfdm hmaster, hset _ .errSlave fd (hfirst ▸ htaken), hfirst]

/-- A child that {lit}`exec_pty` made returns to the caller exactly if it cannot open a slave or become
the leader of a session or group.  Then there are two copies of the caller: one is told the process
number, the other an error, and that one still has all descriptors apart from the masters. -/
theorem exec_pty_returns_twice_iff (access : Bytes → Bool) (path : Option Bytes)
    (envp : Option (List Bytes)) (getenv : Option Bytes) (fork : Option Nat) (kernel : Kernel)
    (terminal : Terminal) (t : Descriptors File) :
    ((∃ value t', (exec_pty access path envp getenv fork kernel terminal t).2 =
        some (.returned value t')) ↔
      (pfind access path envp getenv ≠ none ∧ fork ≠ none ∧
        ((terminal.console = false ∧ kernel.setsid = false) ∨ kernel.openSlave = false ∨
          (terminal.errMaster ≠ none ∧ kernel.openErrSlave = false) ∨
          (terminal.console = true ∧ kernel.setpgid = false)))) ∧
      ∀ value t', (exec_pty access path envp getenv fork kernel terminal t).2 =
          some (.returned value t') →
        fork = some (exec_pty access path envp getenv fork kernel terminal t).1.toNat ∧ value = -1 ∧
          ∀ fd, fd ≠ terminal.fdm → terminal.errMaster ≠ some fd → t.file fd ≠ none →
            t'.file fd = t.file fd := by
  obtain ⟨hiff, hleft⟩ := child_returned kernel terminal t
  unfold exec_pty
  cases pfind access path envp getenv with
  | none => simp
  | some full_path =>
      cases fork with
      | none => simp
      | some childpid =>
          simp only [Option.some_inj, ne_eq, reduceCtorEq, not_false_eq_true, true_and,
            Int.toNat_natCast]
          exact ⟨hiff, hleft⟩

/-! ## The end of a program -/

/-- How {lit}`waitpid` answers. -/
inductive WaitAnswer
  | status (status : UInt32)
  | ECHILD
  | EINTR
  | other

/-- The value for a status: {lit}`WIFEXITED`, {lit}`WEXITSTATUS`, {lit}`WIFSIGNALED` and {lit}`WTERMSIG`
look at its low seven bits and at the byte above. -/
def statusValue (status : UInt32) : Int :=
  if status &&& 0x7f = 0 then ((status >>> 8) &&& 0xff).toNat
  else if status &&& 0x7f ≠ 0x7f then 128 + (status &&& 0x7f).toNat
  else status.toInt32.toInt

/-- {lit}`wait_for_child_process_exit`, with the answers of {lit}`waitpid` one after the other and a bound
on the number of calls. -/
def wait_for_child_process_exit (answer : Nat → WaitAnswer) : Nat → Nat → Option Int
  | 0, _ => none
  | fuel + 1, n =>
      match answer n with
      | .status status => some (statusValue status)
      | .ECHILD => some 0
      | .EINTR => wait_for_child_process_exit answer fuel (n + 1)
      | .other => some (-1)

/-- The status of a program that exits. -/
def exitStatus (code : UInt8) : UInt32 :=
  code.toUInt32 <<< 8

/-- The status of a program that a signal ends, with or without a core dump. -/
def signalStatus (signal : UInt32) (core : Bool) : UInt32 :=
  if core then signal ||| 0x80 else signal

theorem wait_of_interrupted {answer : Nat → WaitAnswer} {n k : Nat}
    (hinterrupted : ∀ m < k, answer (n + m) = .EINTR) (fuel : Nat) :
    wait_for_child_process_exit answer (k + fuel) n =
      wait_for_child_process_exit answer fuel (n + k) := by
  induction k generalizing n with
  | zero => rw [Nat.zero_add, Nat.add_zero]
  | succ k ih =>
      have hfirst := hinterrupted 0 (Nat.succ_pos k)
      rw [Nat.add_zero] at hfirst
      have hlater : ∀ m < k, answer (n + 1 + m) = .EINTR := by
        intro m hm
        have hnext := hinterrupted (m + 1) (Nat.succ_lt_succ hm)
        rwa [Nat.add_comm m 1, ← Nat.add_assoc] at hnext
      rw [Nat.succ_add, wait_for_child_process_exit, hfirst]
      dsimp only
      rw [ih hlater, Nat.add_assoc, Nat.add_comm 1 k]

theorem toNat_and_127 (status : UInt32) : (status &&& 0x7f).toNat = status.toNat % 128 := by
  rw [UInt32.toNat_and]
  exact Nat.and_two_pow_sub_one_eq_mod status.toNat 7

/-- The value for a status, by arithmetic. -/
theorem statusValue_eq (status : UInt32) : statusValue status =
    if status.toNat % 128 = 0 then ((status.toNat / 256 % 256 : Nat) : Int)
    else if status.toNat % 128 ≠ 127 then 128 + ((status.toNat % 128 : Nat) : Int)
    else status.toInt32.toInt := by
  have hzero : status &&& 0x7f = 0 ↔ status.toNat % 128 = 0 := by
    rw [← UInt32.toNat_inj, toNat_and_127]
    rfl
  have hlast : status &&& 0x7f = 0x7f ↔ status.toNat % 128 = 127 := by
    rw [← UInt32.toNat_inj, toNat_and_127]
    rfl
  have hcode : ((status >>> 8) &&& 0xff).toNat = status.toNat / 256 % 256 := by
    have hmask : (0xff : UInt32).toNat = 2 ^ 8 - 1 := rfl
    have hshift : (8 : UInt32).toNat % 32 = 8 := rfl
    rw [UInt32.toNat_and, UInt32.toNat_shiftRight, hmask, Nat.and_two_pow_sub_one_eq_mod, hshift,
      Nat.shiftRight_eq_div_pow]
  unfold statusValue
  simp only [hzero, hlast, ne_eq, hcode, toNat_and_127]

theorem statusValue_exitStatus (code : UInt8) : statusValue (exitStatus code) = code.toNat := by
  have hlt : code.toNat < 256 := code.toNat_lt
  have hstatus : (exitStatus code).toNat = code.toNat * 256 := by
    have hshift : (8 : UInt32).toNat % 32 = 8 := rfl
    unfold exitStatus
    rw [UInt32.toNat_shiftLeft, UInt8.toNat_toUInt32, hshift, Nat.shiftLeft_eq]
    omega
  rw [statusValue_eq, hstatus, if_pos (by omega)]
  omega

theorem statusValue_signalStatus {signal : UInt32} (hpos : 0 < signal.toNat)
    (hlt : signal.toNat < 127) (core : Bool) :
    statusValue (signalStatus signal core) = 128 + signal.toNat := by
  have hlow : (signalStatus signal core).toNat % 128 = signal.toNat := by
    unfold signalStatus
    split
    · have hbit : (0x80 : UInt32).toNat = 2 ^ 7 * 1 := rfl
      rw [UInt32.toNat_or, hbit, Nat.or_comm, ← Nat.two_pow_add_eq_or_of_lt (by omega)]
      omega
    · omega
  rw [statusValue_eq, hlow, if_neg (by omega), if_pos (by omega)]

/-- However often {lit}`waitpid` is interrupted, the value is that of a shell: the exit code of the
program, or 128 and the signal that ended it, with or without a core dump. -/
theorem wait_for_child_process_exit_eq (answer : Nat → WaitAnswer) (k : Nat)
    (hinterrupted : ∀ m < k, answer m = .EINTR) (fuel : Nat) (hfuel : k < fuel) :
    (∀ code : UInt8, answer k = .status (exitStatus code) →
        wait_for_child_process_exit answer fuel 0 = some (code.toNat : Int)) ∧
      (∀ (signal : UInt32) (core : Bool), 0 < signal.toNat → signal.toNat < 127 →
        answer k = .status (signalStatus signal core) →
        wait_for_child_process_exit answer fuel 0 = some (128 + (signal.toNat : Int))) ∧
      (answer k = .ECHILD → wait_for_child_process_exit answer fuel 0 = some 0) ∧
      (answer k = .other → wait_for_child_process_exit answer fuel 0 = some (-1)) := by
  obtain ⟨rest, rfl⟩ := Nat.exists_eq_add_of_lt hfuel
  have hwait : wait_for_child_process_exit answer (k + rest + 1) 0 =
      match answer k with
      | .status status => some (statusValue status)
      | .ECHILD => some 0
      | .EINTR => wait_for_child_process_exit answer rest (k + 1)
      | .other => some (-1) := by
    rw [Nat.add_assoc, wait_of_interrupted fun m hm => by rw [Nat.zero_add]; exact hinterrupted m hm,
      Nat.zero_add, wait_for_child_process_exit]
  rw [hwait]
  refine ⟨fun code hstatus => ?_, fun signal core hpos hlt hstatus => ?_, fun hchild => ?_,
    fun hother => ?_⟩
  · rw [hstatus]
    dsimp only
    rw [statusValue_exitStatus]
  · rw [hstatus]
    dsimp only
    rw [statusValue_signalStatus hpos hlt]
  · rw [hchild]
  · rw [hother]

/-- Two interrupted calls, and then a program that was killed. -/
theorem wait_for_child_process_exit_killed :
    wait_for_child_process_exit
      (fun n => if n < 2 then .EINTR else .status (signalStatus 9 true)) 3 0 = some 137 :=
  (wait_for_child_process_exit_eq
    (fun n => if n < 2 then .EINTR else .status (signalStatus 9 true)) 2
    (fun _ hm => if_pos hm) 3 (by decide)).2.1 9 true (by decide) (by decide) rfl

/-! ## Two programs -/

/-- A process with the standard descriptors, a master under 3, and three other files, one of them
with the flag. -/
def smallTable : Descriptors File where
  file fd := if fd < 3 then some (.other fd) else if fd = 3 ∨ fd = 6 ∨ fd = 9 ∨ fd = 10 then
    some (.other fd) else none
  cloexec fd := fd == 10
  bound := 11
  free fd hfd := by
    rw [if_neg (by omega), if_neg (by omega)]

/-- A kernel whose open descriptors can be listed or not. -/
def smallKernel (opendir : Bool) : Kernel :=
  ⟨true, true, true, true, false, opendir, some 8, true⟩

/-- The table of a child that became a program. -/
def Ending.table : Ending → Descriptors File
  | .executed t => t
  | .exited _ t => t
  | .returned _ t => t

def smallStarted (opendir : Bool) : Descriptors File :=
  (child (smallKernel opendir) ⟨3, none, false⟩ smallTable).table

theorem standard_descriptors_small :
    (smallStarted true).file 0 = some .slave ∧ (smallStarted true).file 1 = some .slave ∧
      (smallStarted true).file 2 = some .slave := by
  have hopen : Terminal.Open ⟨3, none, false⟩ smallTable :=
    ⟨by decide, fun err_fdm herr => by cases herr⟩
  have hstandard := (standard_descriptors_iff (smallKernel true) ⟨3, none, false⟩ smallTable
    (smallStarted true) hopen rfl).1.mpr (by decide)
  exact ⟨hstandard 0 (by decide), hstandard 1 (by decide), hstandard 2 (by decide)⟩

/-- A descriptor above the limit stays open if the open ones cannot be listed. -/
theorem nothing_leaks_small :
    ¬ ∀ fd, 3 ≤ fd → (smallStarted false).file fd = none := by
  have hopen : Terminal.Open ⟨3, none, false⟩ smallTable :=
    ⟨by decide, fun err_fdm herr => by cases herr⟩
  intro hnone
  have hclosed := (nothing_leaks_iff (smallKernel false) ⟨3, none, false⟩ smallTable
    (smallStarted false) hopen rfl).mp hnone
  rcases hclosed with htrue | htrue | hleft
  · cases htrue
  · cases htrue
  · exact absurd (hleft 9 (by decide) (by decide) (by decide)) (by decide)

end Pty
end IdeMultiarch
