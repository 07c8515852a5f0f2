import LinuxLabs.Descriptors
import LinuxLabs.Execution
import LinuxLabs.UdpLoggers

/-! # The daemon of the UDP logger (lab 08)
`daemonize` forks twice, and only the last child goes on. `signal` installs its handlers so that an
interrupted `recvfrom` is restarted, so SIGTERM alone does not end the wait for a datagram. -/
namespace DaemonLogger

open Execution
open CString (Byte ascii)
open Descriptors (Table)
open UdpLoggers (Recv Logger)

def maxFds : ℕ := 1024

inductive File where
  | other (n : ℕ)
  | null
  | socket
  | log
  deriving DecidableEq

inductive Disposition where
  | default
  | ignored
  | handled
  deriving DecidableEq

/-- `terminal` says whether the session has a controlling terminal. -/
structure Process where
  pid : ℕ
  pgid : ℕ
  sid : ℕ
  terminal : Bool
  term : Disposition
  hup : Disposition
  fds : Table File

/-- Where the process that is to become the daemon is. -/
inductive Pos where
  | forking
  | session
  | forkingAgain
  | redirecting
  | installing
  | opening
  | testing
  | receiving
  | exited
  | killed
  deriving DecidableEq

/-- `late` counts the results of `recvfrom` behind SIGTERM. -/
structure State where
  process : Process
  pos : Pos
  running : Bool
  file : List Byte
  received : List Recv
  late : ℕ

def initial (process : Process) : State :=
  ⟨process, .forking, true, [], [], 0⟩

/-- `fork none` is a failure; `setup false` is one of `socket`, `bind` or `fopen` failing. -/
inductive Event where
  | fork (pid : Option ℕ)
  | setsid
  | redirect
  | install
  | setup (ok : Bool)
  | test
  | receive (r : Recv)
  | sigterm
  | sighup
  deriving DecidableEq

/-- The number of a new process is that of no process, group or session there is. -/
def Fresh (p : Process) (pid : ℕ) : Prop :=
  pid ≠ p.pid ∧ pid ≠ p.pgid ∧ pid ≠ p.sid

instance (p : Process) (pid : ℕ) : Decidable (Fresh p pid) :=
  inferInstanceAs (Decidable (_ ∧ _ ∧ _))

def Enabled (s : State) : Event → Prop
  | .fork pid => (s.pos = .forking ∨ s.pos = .forkingAgain) ∧ ∀ n ∈ pid, Fresh s.process n
  | .setsid => s.pos = .session
  | .redirect => s.pos = .redirecting
  | .install => s.pos = .installing
  | .setup _ => s.pos = .opening
  | .test => s.pos = .testing
  | .receive _ => s.pos = .receiving
  | .sigterm | .sighup => s.pos ≠ .exited ∧ s.pos ≠ .killed

/-- The lowest descriptor that is free, if there is one. -/
@[irreducible]
def openFile (t : Table File) (f : File) : Table File :=
  match (List.range maxFds).find? fun fd => t fd = none with
  | some fd => Function.update t fd (some f)
  | none => t

/-- The three calls of `close` and of `open`. -/
def redirect (t : Table File) : Table File :=
  let t := Descriptors.runAll t [.close 0, .close 1, .close 2]
  openFile (openFile (openFile t .null) .null) .null

/-- A process that leads its group cannot start a session. -/
def setsid (p : Process) : Option Process :=
  if p.pgid = p.pid then none
  else some { p with sid := p.pid, pgid := p.pid, terminal := false }

def next (s : State) : Event → State
  | .fork none => { s with pos := .exited }
  | .fork (some pid) =>
    { s with
      process := { s.process with pid := pid }
      pos := if s.pos = .forking then .session else .redirecting }
  | .setsid =>
    match setsid s.process with
    | none => { s with pos := .exited }
    | some p => { s with process := { p with hup := .ignored }, pos := .forkingAgain }
  | .redirect =>
    { s with
      process := { s.process with fds := redirect s.process.fds }
      pos := .installing }
  | .install =>
    { s with process := { s.process with term := .handled, hup := .handled }, pos := .opening }
  | .setup false => { s with pos := .exited }
  | .setup true =>
    { s with
      process := { s.process with fds := openFile (openFile s.process.fds .socket) .log }
      pos := .testing }
  | .test => { s with pos := if s.running then .receiving else .exited }
  | .receive r =>
    { s with
      file := UdpLoggers.receive .daemonLogger s.file r
      received := s.received ++ [r]
      late := if s.running then s.late else s.late + 1
      pos := .testing }
  | .sigterm =>
    match s.process.term with
    | .default => { s with pos := .killed }
    | .ignored => s
    | .handled => { s with running := false }
  | .sighup =>
    match s.process.hup with
    | .default => { s with pos := .killed }
    | .ignored | .handled => s

def machine (process : Process) : Machine State Event :=
  ⟨initial process, Enabled, next⟩

instance (process : Process) (s : State) (e : Event) :
    Decidable ((machine process).Enabled s e) := by
  simp only [machine]
  casesm Event <;> simp only [Enabled] <;> infer_instance

/-! ## Descriptors -/

variable {t : Table File} {f g : File} {fd : ℕ}

theorem openFile_of_ne (h : t fd ≠ none) : openFile t f fd = t fd := by
  unfold openFile
  cases hfind : (List.range maxFds).find? fun fd => t fd = none with
  | none => rfl
  | some n =>
    have hn : t n = none := by simpa using List.find?_some hfind
    apply Function.update_of_ne
    rintro rfl
    exact h hn

/-- The descriptors below are taken. -/
theorem openFile_lowest (hfd : fd < maxFds) (hfree : t fd = none)
    (hbelow : ∀ n < fd, t n ≠ none) : openFile t f = Function.update t fd (some f) := by
  have hfind : (List.range maxFds).find? (fun n => t n = none) = some fd := by
    apply List.find?_range_eq_some.mpr
    refine ⟨by simpa using hfree, List.mem_range.mpr hfd, fun n hn => ?_⟩
    simpa using hbelow n hn
  unfold openFile
  rw [hfind]

/-- Whatever was open before. -/
theorem redirect_null (t : Table File) :
    redirect t 0 = some .null ∧ redirect t 1 = some .null ∧ redirect t 2 = some .null := by
  have hclosed := Descriptors.runAll_close t [0, 1, 2]
  simp only [List.map_cons, List.map_nil] at hclosed
  unfold redirect
  generalize Descriptors.runAll t [.close 0, .close 1, .close 2] = t at hclosed ⊢
  have hzero : openFile t .null = Function.update t 0 (some .null) :=
    openFile_lowest (by decide) (by simp [hclosed]) (by omega)
  rw [hzero]
  have hone : openFile (Function.update t 0 (some .null)) .null =
      Function.update (Function.update t 0 (some .null)) 1 (some .null) := by
    refine openFile_lowest (by decide) (by simp [hclosed]) fun n hn => ?_
    obtain rfl : n = 0 := by omega
    simp
  rw [hone]
  have htwo : openFile (Function.update (Function.update t 0 (some .null)) 1 (some .null)) .null =
      Function.update (Function.update (Function.update t 0 (some .null)) 1 (some .null)) 2
        (some .null) := by
    refine openFile_lowest (by decide) (by simp [hclosed]) fun n hn => ?_
    obtain rfl | rfl : n = 0 ∨ n = 1 := by omega
    · simp
    · simp
  rw [htwo]
  simp

/-! ## Each step -/

/-- Not the leader of its session, which has no terminal: the process cannot get one. -/
structure Detached (p : Process) : Prop where
  notLeader : p.sid ≠ p.pid
  terminal : p.terminal = false
  hup : p.hup ≠ .default

structure Serving (p : Process) : Prop where
  detached : Detached p
  term : p.term = .handled
  stdin : p.fds 0 = some .null
  stdout : p.fds 1 = some .null
  stderr : p.fds 2 = some .null

/-- What `daemonize` has reached. -/
def Reached (p : Process) : Pos → Prop
  | .session => p.pgid ≠ p.pid
  | .forkingAgain => p.terminal = false ∧ p.hup ≠ .default
  | .redirecting => Detached p
  | .installing => Detached p ∧ p.fds 0 = some .null ∧ p.fds 1 = some .null ∧ p.fds 2 = some .null
  | .opening | .testing | .receiving => Serving p
  | .forking | .exited | .killed => True

structure Invariant (s : State) : Prop where
  reached : Reached s.process s.pos
  file : s.file = UdpLoggers.run .daemonLogger s.received
  early : s.running = true → s.late = 0
  late : s.late ≤ 1 ∧ (s.pos = .receiving → s.late = 0)

variable {s : State} {e : Event}

theorem Serving.opened {p : Process} (h : Serving p) (f : File) :
    Serving { p with fds := openFile p.fds f } := by
  have hkept {fd : ℕ} (hfd : p.fds fd = some .null) : openFile p.fds f fd = some .null := by
    rw [← hfd]
    apply openFile_of_ne
    rw [hfd]
    exact Option.some_ne_none _
  obtain ⟨⟨hleader, hterminal, hhup⟩, hterm, h₀, h₁, h₂⟩ := h
  exact ⟨⟨hleader, hterminal, hhup⟩, hterm, hkept h₀, hkept h₁, hkept h₂⟩

theorem reached_fork {pid : ℕ} (h : Reached s.process s.pos) (he : Enabled s (.fork (some pid))) :
    Reached (next s (.fork (some pid))).process (next s (.fork (some pid))).pos := by
  obtain ⟨hpos, hfresh⟩ := he
  obtain ⟨-, hpgid, hsid⟩ : Fresh s.process pid := hfresh pid rfl
  rcases hpos with hpos | hpos
  · simp only [next, hpos, if_true]
    exact hpgid.symm
  · rw [hpos] at h
    simp only [next, hpos, reduceCtorEq, if_false]
    exact ⟨hsid.symm, h.1, h.2⟩

theorem reached_session (h : Reached s.process s.pos) (he : Enabled s .setsid) :
    Reached (next s .setsid).process (next s .setsid).pos := by
  have hpos : s.pos = .session := he
  rw [hpos] at h
  have hleader : s.process.pgid ≠ s.process.pid := h
  simp only [next, setsid, if_neg hleader]
  exact ⟨rfl, nofun⟩

/-- A change of where the process is that leaves the log alone. -/
theorem Invariant.move (h : Invariant s) {p : Process} {pos : Pos} (hreached : Reached p pos)
    (hpos : pos ≠ .receiving) : Invariant { s with process := p, pos := pos } :=
  ⟨hreached, h.file, h.early, h.late.1, fun hr => absurd hr hpos⟩

theorem Invariant.receive (h : Invariant s) (hpos : s.pos = .receiving) (r : Recv) :
    Invariant (next s (.receive r)) := by
  have hreached := h.reached
  rw [hpos] at hreached
  have hzero := h.late.2 hpos
  refine ⟨hreached, ?_, fun hr => ?_, ?_, nofun⟩
  · simp only [next, h.file, UdpLoggers.run, List.foldl_append, List.foldl_cons, List.foldl_nil]
  · have hr : s.running = true := hr
    simp only [next, hr, if_true, hzero]
  · simp only [next]
    split_ifs <;> omega

theorem Invariant.sigterm (h : Invariant s) : Invariant (next s .sigterm) := by
  simp only [next]
  cases s.process.term with
  | default => exact h.move trivial nofun
  | ignored => exact h
  | handled => exact ⟨h.reached, h.file, nofun, h.late⟩

theorem Invariant.sighup (h : Invariant s) : Invariant (next s .sighup) := by
  simp only [next]
  cases s.process.hup with
  | default => exact h.move trivial nofun
  | ignored => exact h
  | handled => exact h

theorem Invariant.test (h : Invariant s) (hpos : s.pos = .testing) : Invariant (next s .test) := by
  have hreached := h.reached
  rw [hpos] at hreached
  simp only [next]
  cases hr : s.running with
  | true =>
    have hzero := h.early hr
    exact ⟨hreached, h.file, fun _ => hzero, h.late.1, fun _ => hzero⟩
  | false =>
    rw [if_neg Bool.false_ne_true, ← hr]
    exact h.move trivial nofun

theorem step_invariant (h : Invariant s) (he : Enabled s e) : Invariant (next s e) := by
  have hreached := h.reached
  cases e with
  | fork pid =>
    cases pid with
    | none => exact h.move trivial nofun
    | some pid =>
      refine h.move (reached_fork hreached he) ?_
      split_ifs <;> exact nofun
  | setsid =>
    have hnew := reached_session hreached he
    simp only [next] at hnew ⊢
    cases hs : setsid s.process with
    | none => exact h.move trivial nofun
    | some p =>
      rw [hs] at hnew
      exact h.move hnew nofun
  | redirect =>
    have hpos : s.pos = .redirecting := he
    rw [hpos] at hreached
    exact h.move ⟨⟨hreached.notLeader, hreached.terminal, hreached.hup⟩, redirect_null _⟩ nofun
  | install =>
    have hpos : s.pos = .installing := he
    rw [hpos] at hreached
    obtain ⟨⟨hleader, hterminal, -⟩, h₀, h₁, h₂⟩ := hreached
    exact h.move ⟨⟨hleader, hterminal, nofun⟩, rfl, h₀, h₁, h₂⟩ nofun
  | setup ok =>
    have hpos : s.pos = .opening := he
    rw [hpos] at hreached
    cases ok with
    | false => exact h.move trivial nofun
    | true => exact h.move ((hreached.opened .socket).opened .log) nofun
  | test => exact h.test he
  | receive r => exact h.receive he r
  | sigterm => exact h.sigterm
  | sighup => exact h.sighup

theorem initial_invariant (process : Process) : Invariant (initial process) :=
  ⟨trivial, rfl, fun _ => rfl, Nat.zero_le 1, fun _ => rfl⟩

/-! ## How it ends -/

/-- The daemon has no terminal and no way to get one, its log is made of what it received, and after
SIGTERM it takes at most one more result of `recvfrom`. But without a result it stays where it
is. -/
structure Daemon (M : Machine State Event) (es : List Event) : Prop where
  serving : (M.run es).pos = .testing ∨ (M.run es).pos = .receiving → Serving (M.run es).process
  file : (M.run es).file = UdpLoggers.run .daemonLogger (M.run es).received
  late : (M.run es).late ≤ 1
  waits : (M.run es).pos = .receiving → ∀ fs, M.Valid (es ++ fs) →
    (M.run (es ++ fs)).pos = .receiving ∨ ∃ r, Event.receive r ∈ fs

theorem waits_step (h : Serving s.process) (hpos : s.pos = .receiving) (he : Enabled s e)
    (hne : ∀ r, e ≠ .receive r) :
    Serving (next s e).process ∧ (next s e).pos = .receiving := by
  cases e with
  | receive r => exact absurd rfl (hne r)
  | sigterm =>
    simp only [next, h.term]
    exact ⟨h, hpos⟩
  | sighup =>
    simp only [next]
    cases hh : s.process.hup with
    | default => exact absurd hh h.detached.hup
    | ignored => exact ⟨h, hpos⟩
    | handled => exact ⟨h, hpos⟩
  | fork pid => simp [Enabled, hpos] at he
  | setsid | redirect | install | setup | test => simp [Enabled, hpos] at he

theorem daemon_waits (process : Process) {es : List Event} (h : (machine process).Valid es) :
    Daemon (machine process) es := by
  have hinv {gs : List Event} (hg : (machine process).Valid gs) :
      Invariant ((machine process).run gs) :=
    Machine.invariant (I := Invariant) (initial_invariant process)
      (fun _ _ hs he => step_invariant hs he) hg
  have hserving {gs : List Event} (hg : (machine process).Valid gs)
      (hpos : ((machine process).run gs).pos = .testing ∨
        ((machine process).run gs).pos = .receiving) :
      Serving ((machine process).run gs).process := by
    have hreached := (hinv hg).reached
    rcases hpos with hpos | hpos <;> rwa [hpos] at hreached
  refine ⟨hserving h, (hinv h).file, (hinv h).late.1, fun hpos fs hv => ?_⟩
  induction fs using List.reverseRecOn with
  | nil =>
    rw [List.append_nil]
    exact Or.inl hpos
  | append_singleton fs e ih =>
    rw [← List.append_assoc] at hv ⊢
    obtain ⟨hv, he⟩ := (Machine.valid_concat _ e).mp hv
    rcases ih hv with hstay | ⟨r, hr⟩
    · by_cases hrecv : ∃ r, e = .receive r
      · obtain ⟨r, rfl⟩ := hrecv
        exact Or.inr ⟨r, by simp⟩
      · rw [Machine.run_concat]
        exact Or.inl (waits_step (hserving hv (Or.inr hstay)) hstay he
          (not_exists.mp hrecv)).2
    · exact Or.inr ⟨r, List.mem_append_left _ hr⟩

/-- Started from a terminal; SIGTERM ends it when the next datagram is logged. -/
def shellChild : Process := ⟨100, 100, 50, true, .default, .default, fun fd =>
  if fd ≤ 2 then some (.other 0) else none⟩

def lingering : List Event :=
  [.fork (some 101), .setsid, .fork (some 102), .redirect, .install, .setup true, .test, .sighup,
    .sigterm, .sigterm, .receive (.datagram UdpLoggers.alice (ascii "bye\n")), .test]

theorem daemon_waits_lingering :
    Daemon (machine shellChild) lingering ∧
      ((machine shellChild).run lingering).pos = .exited ∧
      ((machine shellChild).run lingering).late = 1 :=
  ⟨daemon_waits shellChild (by decide +kernel), by decide +kernel, by decide +kernel⟩

end DaemonLogger
