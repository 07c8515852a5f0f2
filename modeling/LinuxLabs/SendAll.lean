import LinuxLabs.ThreadPoolServer

/-! # `send_all` (lab 15)
The loop with the results of its calls to `send` given as a list. Each call is kept with the
slice of the buffer it was made for. -/
namespace SendAll

open Execution CString ThreadPoolServer

/-- `send(fd, buf + offset, size, 0)` and what it came to. -/
structure Call where
  offset : ℕ
  size : ℕ
  result : SendResult
  deriving DecidableEq

/-- The calls that were made; `returned` is `none` while the loop waits for a result. -/
structure Outcome where
  returned : Option ℤ
  calls : List Call
  deriving DecidableEq

def Outcome.after (o : Outcome) (c : Call) : Outcome := ⟨o.returned, c :: o.calls⟩

/-- `while (sent < len)`. -/
def sendLoop (len sent : ℕ) : List SendResult → Outcome
  | [] => ⟨if sent < len then none else some 1, []⟩
  | r :: results =>
    if sent < len then
      match r with
      | .accepted n => (sendLoop len (sent + n) results).after ⟨sent, len - sent, r⟩
      | .interrupted => (sendLoop len sent results).after ⟨sent, len - sent, r⟩
      | .wouldBlock => ⟨some 0, [⟨sent, len - sent, r⟩]⟩
      | .failed => ⟨some (-1), [⟨sent, len - sent, r⟩]⟩
    else ⟨some 1, []⟩

def sendAll (len : ℕ) (results : List SendResult) : Outcome := sendLoop len 0 results

namespace Call

/-- The result is one that `send` may have for a slice of this size. -/
def Possible (c : Call) : Prop := ∀ n, c.result = .accepted n → 0 < n ∧ n ≤ c.size

def accepted (c : Call) : ℕ :=
  match c.result with
  | .accepted n => n
  | .interrupted | .wouldBlock | .failed => 0

/-- The bytes of the buffer that the socket took. -/
def handed (buf : List Byte) (c : Call) : List Byte :=
  ((buf.drop c.offset).take c.size).take c.accepted

end Call

def handed (buf : List Byte) (calls : List Call) : List Byte := calls.flatMap (Call.handed buf)

/-- The same by its places in the buffer. -/
def handedPlaces (calls : List Call) : List ℕ :=
  calls.flatMap fun c => List.range' c.offset c.accepted

def interrupts (calls : List Call) : ℕ := calls.countP fun c => c.result = .interrupted

/-- What is right about a run of the loop that starts with `sent`, in terms of the number `k`
of bytes it gets rid of. -/
structure Sends (buf : List Byte) (len sent : ℕ) (results : List SendResult) (o : Outcome)
    (k : ℕ) : Prop where
  places : handedPlaces o.calls = List.range' sent k
  bytes : handed buf o.calls = (buf.drop sent).take k
  bound : sent + k ≤ len
  all : o.returned = some 1 ↔ sent + k = len
  wouldBlock : o.returned = some 0 ↔ ∃ c ∈ o.calls, c.result = .wouldBlock
  failed : o.returned = some (-1) ↔ ∃ c ∈ o.calls, c.result = .failed
  value : ∀ v ∈ o.returned, v = 1 ∨ v = 0 ∨ v = -1
  slices : ∀ c ∈ o.calls, 0 < c.size ∧ c.offset + c.size = len
  consumed : o.calls.map Call.result <+: results
  rounds : o.calls.length + sent ≤ len + interrupts o.calls
  waiting : o.returned = none →
    o.calls.map Call.result = results ∧ o.calls.length + sent < len + interrupts o.calls

variable {buf : List Byte} {len sent k : ℕ} {results : List SendResult} {o : Outcome}

@[simp] theorem after_returned (o : Outcome) (c : Call) : (o.after c).returned = o.returned := rfl

@[simp] theorem after_calls (o : Outcome) (c : Call) : (o.after c).calls = c :: o.calls := rfl

theorem handed_cons (c : Call) (calls : List Call) :
    handed buf (c :: calls) = c.handed buf ++ handed buf calls := rfl

theorem handedPlaces_cons (c : Call) (calls : List Call) :
    handedPlaces (c :: calls) = List.range' c.offset c.accepted ++ handedPlaces calls := rfl

theorem interrupts_cons (c : Call) (calls : List Call) :
    interrupts (c :: calls) = interrupts calls + if c.result = .interrupted then 1 else 0 := by
  simp [interrupts, List.countP_cons]

theorem handed_of_none {c : Call} (h : c.accepted = 0) : c.handed buf = [] := by
  rw [Call.handed, h, List.take_zero]

theorem sendLoop_ended (h : ¬ sent < len) (results : List SendResult) :
    sendLoop len sent results = ⟨some 1, []⟩ := by
  cases results with
  | nil => rw [sendLoop, if_neg h]
  | cons r results => cases r <;> rw [sendLoop, if_neg h]

theorem sends_done (h : sent = len) : Sends buf len sent results ⟨some 1, []⟩ 0 where
  places := rfl
  bytes := by simp [handed]
  bound := by omega
  all := by simp [h]
  wouldBlock := by simp
  failed := by simp
  value := by simp
  slices := by simp
  consumed := List.nil_prefix
  rounds := by simp [h]
  waiting := by simp

theorem sends_waiting (h : sent < len) : Sends buf len sent [] ⟨none, []⟩ 0 where
  places := rfl
  bytes := by simp [handed]
  bound := by omega
  all := by
    simp only [reduceCtorEq, false_iff]
    omega
  wouldBlock := by simp
  failed := by simp
  value := by simp
  slices := by simp
  consumed := List.nil_prefix
  rounds := by
    rw [List.length_nil]
    omega
  waiting := fun _ => ⟨rfl, by rw [List.length_nil]; omega⟩

/-- A short or full write: the slice starts where the next one goes on. -/
theorem Sends.accepted {n : ℕ} (hn : 0 < n) (hle : n ≤ len - sent)
    (h : Sends buf len (sent + n) results o k) :
    Sends buf len sent (.accepted n :: results) (o.after ⟨sent, len - sent, .accepted n⟩)
      (n + k) where
  places := by
    rw [after_calls, handedPlaces_cons, h.places, ← List.range'_append_1]
    rfl
  bytes := by
    rw [after_calls, handed_cons, h.bytes, ← List.drop_drop, List.take_add, Call.handed]
    dsimp only [Call.accepted]
    rw [List.take_take, Nat.min_eq_left hle]
  bound := by
    have := h.bound
    omega
  all := by
    rw [after_returned, h.all, Nat.add_assoc]
  wouldBlock := by simpa using h.wouldBlock
  failed := by simpa using h.failed
  value := h.value
  slices := by
    rintro c (_ | ⟨_, hc⟩)
    · exact ⟨by dsimp only; omega, by dsimp only; omega⟩
    · exact h.slices c hc
  consumed := by simpa using h.consumed
  rounds := by
    have := h.rounds
    rw [after_calls, interrupts_cons, if_neg (by simp), List.length_cons]
    omega
  waiting := by
    intro hr
    obtain ⟨hres, hlt⟩ := h.waiting hr
    rw [after_calls, interrupts_cons, if_neg (by simp), List.length_cons, List.map_cons, hres]
    exact ⟨rfl, by omega⟩

theorem Sends.interrupted (hlt : sent < len) (h : Sends buf len sent results o k) :
    Sends buf len sent (.interrupted :: results) (o.after ⟨sent, len - sent, .interrupted⟩)
      k where
  places := h.places
  bytes := by rw [after_calls, handed_cons, handed_of_none rfl, h.bytes, List.nil_append]
  bound := h.bound
  all := h.all
  wouldBlock := by simpa using h.wouldBlock
  failed := by simpa using h.failed
  value := h.value
  slices := by
    rintro c (_ | ⟨_, hc⟩)
    · exact ⟨by dsimp only; omega, by dsimp only; omega⟩
    · exact h.slices c hc
  consumed := by simpa using h.consumed
  rounds := by
    have := h.rounds
    rw [after_calls, interrupts_cons, if_pos rfl, List.length_cons]
    omega
  waiting := by
    intro hr
    obtain ⟨hres, hlt⟩ := h.waiting hr
    rw [after_calls, interrupts_cons, if_pos rfl, List.length_cons, List.map_cons, hres]
    exact ⟨rfl, by omega⟩

/-- An error that the loop does not retry ends it with nothing sent by that call. -/
theorem sends_error (hlt : sent < len) {r : SendResult} {v : ℤ}
    (hr : r = .wouldBlock ∧ v = 0 ∨ r = .failed ∧ v = -1) :
    Sends buf len sent (r :: results) ⟨some v, [⟨sent, len - sent, r⟩]⟩ 0 where
  places := by
    rcases hr with ⟨rfl, -⟩ | ⟨rfl, -⟩ <;> rfl
  bytes := by
    rcases hr with ⟨rfl, -⟩ | ⟨rfl, -⟩ <;> simp [handed, Call.handed, Call.accepted]
  bound := by omega
  all := by
    rcases hr with ⟨-, rfl⟩ | ⟨-, rfl⟩ <;> simp <;> omega
  wouldBlock := by
    rcases hr with ⟨rfl, rfl⟩ | ⟨rfl, rfl⟩ <;> simp
  failed := by
    rcases hr with ⟨rfl, rfl⟩ | ⟨rfl, rfl⟩ <;> simp
  value := by
    rcases hr with ⟨-, rfl⟩ | ⟨-, rfl⟩ <;> simp
  slices := by
    rintro c (_ | ⟨_, ⟨⟩⟩)
    exact ⟨by dsimp only; omega, by dsimp only; omega⟩
  consumed := by simp
  rounds := by
    rw [List.length_singleton]
    omega
  waiting := by simp

/-- Every run of the loop, by induction on the results: the bytes sent and the bytes left add up
to the buffer before each call. -/
theorem sendLoop_sends (buf : List Byte) (hs : sent ≤ len)
    (hp : ∀ c ∈ (sendLoop len sent results).calls, c.Possible) :
    ∃ k, Sends buf len sent results (sendLoop len sent results) k := by
  induction results generalizing sent with
  | nil =>
    rw [sendLoop]
    by_cases hlt : sent < len
    · rw [if_pos hlt]
      exact ⟨0, sends_waiting hlt⟩
    · rw [if_neg hlt]
      exact ⟨0, sends_done (by omega)⟩
  | cons r results ih =>
    by_cases hlt : sent < len
    · cases r with
      | accepted n =>
        rw [sendLoop, if_pos hlt] at hp ⊢
        obtain ⟨hn, hle⟩ := hp ⟨sent, len - sent, .accepted n⟩ List.mem_cons_self n rfl
        dsimp only at hle
        have hrest : ∀ c ∈ (sendLoop len (sent + n) results).calls, c.Possible :=
          fun c hc => hp c (List.mem_cons_of_mem _ hc)
        obtain ⟨k, hk⟩ := ih (by omega) hrest
        exact ⟨n + k, hk.accepted hn hle⟩
      | interrupted =>
        rw [sendLoop, if_pos hlt] at hp ⊢
        obtain ⟨k, hk⟩ := ih hs fun c hc => hp c (List.mem_cons_of_mem _ hc)
        exact ⟨k, hk.interrupted hlt⟩
      | wouldBlock =>
        rw [sendLoop, if_pos hlt]
        exact ⟨0, sends_error hlt (Or.inl ⟨rfl, rfl⟩)⟩
      | failed =>
        rw [sendLoop, if_pos hlt]
        exact ⟨0, sends_error hlt (Or.inr ⟨rfl, rfl⟩)⟩
    · rw [sendLoop_ended hlt]
      exact ⟨0, sends_done (by omega)⟩

/-- The first `k` bytes of the buffer go out, each once and in order, and the value returned
says whether these are all of them, or which error came before. -/
structure SendAllRight (buf : List Byte) (len : ℕ) (results : List SendResult) (o : Outcome) :
    Prop where
  handed : ∃ k ≤ len, handedPlaces o.calls = List.range k ∧ handed buf o.calls = buf.take k ∧
    (o.returned = some 1 ↔ k = len)
  wouldBlock : o.returned = some 0 ↔ ∃ c ∈ o.calls, c.result = .wouldBlock
  failed : o.returned = some (-1) ↔ ∃ c ∈ o.calls, c.result = .failed
  value : ∀ v ∈ o.returned, v = 1 ∨ v = 0 ∨ v = -1
  inside : ∀ c ∈ o.calls, c.offset + c.size ≤ buf.length
  consumed : o.calls.map Call.result <+: results
  rounds : o.calls.length ≤ len + interrupts o.calls
  ends : len + results.count .interrupted ≤ results.length → o.returned ≠ none

theorem interrupts_eq_count (calls : List Call) :
    interrupts calls = (calls.map Call.result).count .interrupted := by
  rw [interrupts, List.count, List.countP_map]
  congr 1

/-- `send_all` for every buffer, every length that the buffer has and all results of `send`. -/
theorem sendAll_right (buf : List Byte) (len : ℕ) (results : List SendResult)
    (hlen : len ≤ buf.length) (hp : ∀ c ∈ (sendAll len results).calls, c.Possible) :
    SendAllRight buf len results (sendAll len results) := by
  obtain ⟨k, hk⟩ := sendLoop_sends buf (Nat.zero_le len) hp
  have hbound := hk.bound
  have hall := hk.all
  have hrounds := hk.rounds
  rw [Nat.zero_add] at hbound hall
  refine ⟨⟨k, hbound, ?_, hk.bytes, hall⟩, hk.wouldBlock, hk.failed, hk.value, fun c hc => ?_,
    hk.consumed, hrounds, fun hmany hnone => ?_⟩
  · rw [List.range_eq_range']
    exact hk.places
  · have := (hk.slices c hc).2
    omega
  · obtain ⟨hres, hlt⟩ := hk.waiting hnone
    rw [← hres, ← interrupts_eq_count, List.length_map] at hmany
    omega

/-- A short write, a signal and the rest. -/
theorem sendAll_right_short :
    SendAllRight (ascii "hello") 5 [.accepted 2, .interrupted, .accepted 3]
      (sendAll 5 [.accepted 2, .interrupted, .accepted 3]) :=
  sendAll_right _ _ _ (by decide) (by
    rintro c (_ | ⟨_, _ | ⟨_, _ | ⟨_, ⟨⟩⟩⟩⟩) n h <;> cases h <;> decide)

/-! ## The calls as steps of a worker -/

variable {T : ℕ} {listenFd : Fd} {s : State T} {w : Fin T} {n c : Node} {msg : List Byte}
  {rest : List Node} {conn : Conn}

def events (w : Fin T) (calls : List Call) : List (Event T) :=
  calls.map fun c => .worker w (.send c.result)

theorem enabled_send (hw : s.worker w = .broadcasting n msg (c :: rest) sent)
    (hother : c.fd ≠ n.fd) (hlt : sent < msg.length) {r : SendResult}
    (hr : r.Possible (s.sockets c.fd) (msg.length - sent)) : Enabled s (.worker w (.send r)) := by
  rw [Enabled, hw]
  exact ⟨hother, hlt, hr⟩

theorem next_send (hw : s.worker w = .broadcasting n msg (c :: rest) sent) (r : SendResult) :
    next s (.worker w (.send r)) =
      match r with
      | .accepted k =>
        (s.deliver c.fd (s.log.length - 1) ((msg.drop sent).take k)).setWorker w
          (.broadcasting n msg (c :: rest) (sent + k))
      | .interrupted => s
      | .wouldBlock | .failed => s.setWorker w (.broadcasting n msg rest 0) := by
  rw [next, hw]
  cases r <;> rfl

/-- In the server the calls of `send_all` to one client are steps of `broadcast_message`, and
they write these bytes to the client's connection. -/
theorem broadcasting_sends (hw : s.worker w = .broadcasting n msg (c :: rest) sent)
    (hother : c.fd ≠ n.fd) (hsocket : s.sockets c.fd = some (.connection conn))
    (hs : sent ≤ msg.length)
    (hp : ∀ call ∈ (sendLoop msg.length sent results).calls, call.Possible) :
    let calls := (sendLoop msg.length sent results).calls
    (machine T listenFd).AlongFrom Enabled s (events w calls) ∧
      ((machine T listenFd).runFrom s (events w calls)).written conn =
        s.written conn ++ (handed msg calls).map (s.log.length - 1, ·) := by
  induction results generalizing s sent with
  | nil => simp [sendLoop, events, handed]
  | cons r results ih =>
    by_cases hlt : sent < msg.length
    · have hnext : (machine T listenFd).next s (.worker w (.send r)) = _ := next_send hw r
      cases r with
      | accepted k =>
        rw [sendLoop, if_pos hlt] at hp ⊢
        obtain ⟨hk, hle⟩ := hp ⟨sent, _, .accepted k⟩ List.mem_cons_self k rfl
        dsimp only at hle
        have hthere : s.sockets c.fd ≠ none ∧ s.sockets c.fd ≠ some .listener := by
          rw [hsocket]
          exact ⟨nofun, nofun⟩
        have hw' : ((machine T listenFd).next s (.worker w (.send (.accepted k)))).worker w =
            .broadcasting n msg (c :: rest) (sent + k) := by
          rw [hnext]
          exact Function.update_self ..
        obtain ⟨hrest, hwritten⟩ := ih hw' (by rw [hnext]; exact hsocket) (by omega)
          fun call hc => hp call (List.mem_cons_of_mem _ hc)
        refine ⟨⟨enabled_send hw hother hlt ⟨hk, hle, hthere⟩, hrest⟩, hwritten.trans ?_⟩
        rw [hnext, after_calls, handed_cons, List.map_append, ← List.append_assoc]
        simp [State.deliver, State.setWorker, hsocket, Call.handed, Call.accepted, List.take_take,
          Nat.min_eq_left hle]
      | interrupted =>
        rw [sendLoop, if_pos hlt] at hp ⊢
        obtain ⟨hrest, hwritten⟩ := ih hw hsocket hs
          fun call hc => hp call (List.mem_cons_of_mem _ hc)
        refine ⟨⟨enabled_send hw hother hlt trivial, by rwa [hnext]⟩, ?_⟩
        rw [after_calls, events, List.map_cons, Machine.runFrom_cons, hnext, handed_cons,
          handed_of_none rfl]
        exact hwritten
      | wouldBlock =>
        rw [sendLoop, if_pos hlt]
        refine ⟨⟨enabled_send hw hother hlt trivial, trivial⟩, ?_⟩
        rw [events, List.map_singleton, Machine.runFrom_cons, hnext]
        simp [State.setWorker, handed, Call.handed, Call.accepted]
      | failed =>
        rw [sendLoop, if_pos hlt]
        refine ⟨⟨enabled_send hw hother hlt trivial, trivial⟩, ?_⟩
        rw [events, List.map_singleton, Machine.runFrom_cons, hnext]
        simp [State.setWorker, handed, Call.handed, Call.accepted]
    · rw [sendLoop_ended hlt]
      simp [events, handed]

end SendAll
