import LinuxLabs.Execution
import LinuxLabs.Channel
import LinuxLabs.CString
import Mathlib.Data.List.GetD
import Mathlib.Tactic.MkIffOfInductiveProp

/-! # The producer and the consumer of IPC lab 05
Two processes share three semaphores and an array of messages. Every semaphore operation and
every access to a field of a message is a step of its own; `snprintf` and `printf` go over
the text byte by byte. -/
namespace SharedQueue

open Execution CString

def msgSize : ℕ := 64

structure Message where
  id : ℕ
  text : Vector Byte msgSize

def Message.byte (m : Message) (k : ℕ) : Byte := m.text[k]?.getD 0

def Message.setByte (m : Message) (k : ℕ) (b : Byte) : Message :=
  { m with text := m.text.setIfInBounds k b }

/-- What `snprintf` prints for the index `i`. -/
def text (i : ℕ) : List Byte :=
  snprintf msgSize (ascii "Hello Child via shared memory with semaphores " ++ decimal (i + 1))

/-- Where the parent stands in its loop. -/
inductive Producer where
  | waitEmpty | waitMutex | setId
  | print (k : ℕ)
  | report | postMutex | postFull
  deriving DecidableEq

inductive Consumer where
  | waitFull | waitMutex | readId
  | print (k : ℕ)
  | clearId | postMutex | postEmpty
  deriving DecidableEq

/-- `gotId` and `got` are what the child's `printf` has read so far; `wrote` and `output` are
the lines the two processes have printed. -/
structure State where
  mutex : ℕ
  empty : ℕ
  full : ℕ
  messages : ℕ → Message
  i : ℕ
  producer : Producer
  wrote : List ℕ
  j : ℕ
  consumer : Consumer
  gotId : ℕ
  got : List Byte
  output : List (ℕ × List Byte)

/-- `mmap` returns zeroed memory. -/
def initial (length : ℕ) : State where
  mutex := 1
  empty := length
  full := 0
  messages _ := ⟨0, Vector.replicate msgSize 0⟩
  i := 0
  producer := .waitEmpty
  wrote := []
  j := 0
  consumer := .waitFull
  gotId := 0
  got := []
  output := []

def setMessage (messages : ℕ → Message) (i : ℕ) (m : Message) : ℕ → Message :=
  Function.update messages i m

def produce (s : State) : State :=
  match s.producer with
  | .waitEmpty => { s with empty := s.empty - 1, producer := .waitMutex }
  | .waitMutex => { s with mutex := s.mutex - 1, producer := .setId }
  | .setId =>
    { s with
      messages := setMessage s.messages s.i { s.messages s.i with id := s.i + 1 }
      producer := .print 0 }
  | .print k =>
    { s with
      messages := setMessage s.messages s.i ((s.messages s.i).setByte k ((text s.i).getD k 0))
      producer := if k < (text s.i).length then .print (k + 1) else .report }
  | .report => { s with wrote := s.wrote ++ [(s.messages s.i).id], producer := .postMutex }
  | .postMutex => { s with mutex := s.mutex + 1, producer := .postFull }
  | .postFull => { s with full := s.full + 1, i := s.i + 1, producer := .waitEmpty }

def consume (s : State) : State :=
  match s.consumer with
  | .waitFull => { s with full := s.full - 1, consumer := .waitMutex }
  | .waitMutex => { s with mutex := s.mutex - 1, consumer := .readId }
  | .readId => { s with gotId := (s.messages s.j).id, got := [], consumer := .print 0 }
  | .print k =>
    let b := (s.messages s.j).byte k
    if b = 0 then { s with output := s.output ++ [(s.gotId, s.got)], consumer := .clearId }
    else { s with got := s.got ++ [b], consumer := .print (k + 1) }
  | .clearId =>
    { s with
      messages := setMessage s.messages s.j { s.messages s.j with id := 0 }
      consumer := .postMutex }
  | .postMutex => { s with mutex := s.mutex + 1, consumer := .postEmpty }
  | .postEmpty => { s with empty := s.empty + 1, j := s.j + 1, consumer := .waitFull }

inductive Event where
  | produce | consume
  deriving DecidableEq

/-- Neither has left its loop, and `sem_wait` blocks on 0. -/
def Enabled (length : ℕ) (s : State) : Event → Prop
  | .produce => s.i < length ∧ (s.producer = .waitEmpty → 0 < s.empty) ∧
      (s.producer = .waitMutex → 0 < s.mutex)
  | .consume => s.j < length ∧ (s.consumer = .waitFull → 0 < s.full) ∧
      (s.consumer = .waitMutex → 0 < s.mutex)

def next (s : State) : Event → State
  | .produce => produce s
  | .consume => consume s

def machine (length : ℕ) : Machine State Event := ⟨initial length, Enabled length, next⟩

instance (length : ℕ) (s : State) (e : Event) : Decidable (Enabled length s e) := by
  cases e <;> unfold Enabled <;> infer_instance

instance (length : ℕ) (s : State) (e : Event) : Decidable ((machine length).Enabled s e) :=
  inferInstanceAs (Decidable (Enabled length s e))

/-- Between the wait and the post on `mutex`. -/
def Producer.locked : Producer → Bool
  | .setId | .print _ | .report | .postMutex => true
  | _ => false

def Consumer.locked : Consumer → Bool
  | .readId | .print _ | .clearId | .postMutex => true
  | _ => false

/-- Between the wait on `empty` and the post on `full`. -/
def Producer.filling : Producer → Bool
  | .waitEmpty => false
  | _ => true

def Consumer.draining : Consumer → Bool
  | .waitFull => false
  | _ => true

/-- The message of the producer's round `i`. -/
def message (i : ℕ) : ℕ × List Byte := (i + 1, text i)

structure HandedOver (length : ℕ) (s : State) : Prop where
  exclusive : ¬ (s.producer.locked ∧ s.consumer.locked)
  balanced : s.empty + s.full + s.producer.filling.toNat + s.consumer.draining.toNat = length
  inOrder : s.output = (List.range s.output.length).map message
  written : s.output.map Prod.fst <+: s.wrote
  allRead : (∀ e, ¬ Enabled length s e) → s.output = (List.range length).map message

variable {length : ℕ} {s : State} {e : Event}

/-! ## The semaphores count the rounds -/

@[mk_iff] structure Counted (length : ℕ) (s : State) : Prop where
  mutex : s.mutex + s.producer.locked.toNat + s.consumer.locked.toNat = 1
  empty : s.empty + s.i + s.producer.filling.toNat = length + s.j
  full : s.full + s.j + s.consumer.draining.toNat = s.i
  bound : s.i + s.producer.filling.toNat ≤ length

theorem counted_initial : Counted length (initial length) := by
  constructor <;> simp [initial, Producer.locked, Consumer.locked, Producer.filling,
    Consumer.draining]

theorem counted_produce (h : Counted length s) (he : Enabled length s .produce) :
    Counted length (produce s) := by
  obtain ⟨hi, hempty, hmutex⟩ := he
  rw [counted_iff] at h ⊢
  cases hp : s.producer with
  | waitEmpty =>
    have := hempty hp
    simp only [produce, hp, Producer.locked, Producer.filling, Bool.toNat_true,
      Bool.toNat_false] at h ⊢
    omega
  | waitMutex =>
    have := hmutex hp
    simp only [produce, hp, Producer.locked, Producer.filling, Bool.toNat_true,
      Bool.toNat_false] at h ⊢
    omega
  | print k =>
    by_cases hk : k < (text s.i).length <;>
      simpa [produce, hp, hk, Producer.locked, Producer.filling] using h
  | _ =>
    simp only [produce, hp, Producer.locked, Producer.filling, Bool.toNat_true,
      Bool.toNat_false] at h ⊢
    omega

theorem counted_consume (h : Counted length s) (he : Enabled length s .consume) :
    Counted length (consume s) := by
  obtain ⟨-, hfull, hmutex⟩ := he
  rw [counted_iff] at h ⊢
  cases hc : s.consumer with
  | waitFull =>
    have := hfull hc
    simp only [consume, hc, Consumer.locked, Consumer.draining, Bool.toNat_true,
      Bool.toNat_false] at h ⊢
    omega
  | waitMutex =>
    have := hmutex hc
    simp only [consume, hc, Consumer.locked, Consumer.draining, Bool.toNat_true,
      Bool.toNat_false] at h ⊢
    omega
  | print k =>
    by_cases hb : (s.messages s.j).byte k = 0 <;>
      simpa [consume, hc, hb, Consumer.locked, Consumer.draining] using h
  | _ =>
    simp only [consume, hc, Consumer.locked, Consumer.draining, Bool.toNat_true,
      Bool.toNat_false] at h ⊢
    omega

theorem counted_next (h : Counted length s) (he : Enabled length s e) :
    Counted length (next s e) := by
  cases e with
  | produce => exact counted_produce h he
  | consume => exact counted_consume h he

theorem Counted.exclusive (h : Counted length s) : ¬ (s.producer.locked ∧ s.consumer.locked) := by
  rintro ⟨hp, hc⟩
  have := h.mutex
  simp only [hp, hc, Bool.toNat_true] at this
  omega

theorem Counted.balanced (h : Counted length s) :
    s.empty + s.full + s.producer.filling.toNat + s.consumer.draining.toNat = length := by
  have := h.empty
  have := h.full
  omega

theorem Counted.produce_enabled (h : Counted length s) (hi : s.i < length)
    (hm : s.producer = .waitMutex → 0 < s.mutex) : Enabled length s .produce := by
  refine ⟨hi, fun hp => ?_, hm⟩
  have hempty := h.empty
  have hfull := h.full
  simp only [hp, Producer.filling, Bool.toNat_false] at hempty
  omega

theorem Counted.consume_enabled (h : Counted length s) (hj : s.j < s.i)
    (hm : s.consumer = .waitMutex → 0 < s.mutex) : Enabled length s .consume := by
  have hfull := h.full
  have hbound := h.bound
  refine ⟨by omega, fun hc => ?_, hm⟩
  simp only [hc, Consumer.draining, Bool.toNat_false] at hfull
  omega

theorem Counted.lt_length (h : Counted length s) (hp : s.producer.filling = true) :
    s.i < length := by
  have := h.bound
  simp only [hp, Bool.toNat_true] at this
  omega

theorem Counted.lt_written (h : Counted length s) (hc : s.consumer.draining = true) :
    s.j < s.i := by
  have := h.full
  simp only [hc, Bool.toNat_true] at this
  omega

theorem Counted.le_written (h : Counted length s) : s.j ≤ s.i := by
  have := h.full
  omega

theorem Producer.filling_of_locked {p : Producer} (h : p.locked = true) : p.filling = true := by
  cases p <;> first | rfl | cases h

theorem Consumer.draining_of_locked {c : Consumer} (h : c.locked = true) :
    c.draining = true := by
  cases c <;> first | rfl | cases h

/-- One of the two can go on until both have finished. -/
theorem Counted.finished (h : Counted length s) (hstuck : ∀ e, ¬ Enabled length s e) :
    s.i = length ∧ s.j = length := by
  have hp : s.producer.locked = false := by
    by_contra hl
    rw [Bool.not_eq_false] at hl
    apply hstuck .produce
    apply h.produce_enabled (h.lt_length (Producer.filling_of_locked hl))
    intro hw
    rw [hw] at hl
    cases hl
  have hc : s.consumer.locked = false := by
    by_contra hl
    rw [Bool.not_eq_false] at hl
    apply hstuck .consume
    apply h.consume_enabled (h.lt_written (Consumer.draining_of_locked hl))
    intro hw
    rw [hw] at hl
    cases hl
  have hmutex := h.mutex
  simp only [hp, hc, Bool.toNat_false] at hmutex
  have hi : ¬ s.i < length := fun hi => hstuck .produce (h.produce_enabled hi (by omega))
  have hj : ¬ s.j < s.i := fun hj => hstuck .consume (h.consume_enabled hj (by omega))
  have hbound := h.bound
  have hfull := h.full
  omega

/-! ## What is in the slots -/

theorem text_noNul (i : ℕ) : (0 : Byte) ∉ text i := by
  apply snprintf_noNul
  rw [List.mem_append, not_or]
  exact ⟨by decide, decimal_noNul _⟩

theorem text_length (i : ℕ) : (text i).length < msgSize := by
  have : (text i).length ≤ msgSize - 1 := List.length_take_le _ _
  unfold msgSize at *
  omega

/-- How many bytes of the text the producer has stored in its round `i`. -/
def Producer.stored (i : ℕ) : Producer → ℕ
  | .waitEmpty | .waitMutex | .setId => 0
  | .print k => k
  | .report | .postMutex | .postFull => (text i).length + 1

def Producer.named : Producer → Bool
  | .waitEmpty | .waitMutex | .setId => false
  | _ => true

def Producer.reported : Producer → Bool
  | .postMutex | .postFull => true
  | _ => false

def Consumer.cleared : Consumer → Bool
  | .postMutex | .postEmpty => true
  | _ => false

theorem Consumer.cleared_of_waiting {c : Consumer} (h : c.draining = false) :
    c.cleared = false := by
  cases c <;> first | rfl | cases h

def Consumer.printed : Consumer → Bool
  | .clearId | .postMutex | .postEmpty => true
  | _ => false

/-- The slots below `i` hold their whole message, the slot `i` what has been stored of it;
an id stays until the consumer clears it. -/
@[mk_iff] structure Stored (s : State) : Prop where
  whole : ∀ m < s.i, ∀ k ≤ (text m).length, (s.messages m).byte k = (text m).getD k 0
  part : ∀ k < s.producer.stored s.i, (s.messages s.i).byte k = (text s.i).getD k 0
  inside : ∀ k, s.producer = .print k → k ≤ (text s.i).length
  id : ∀ m, m < s.i ∨ m = s.i ∧ s.producer.named → s.j ≤ m →
    (m = s.j → s.consumer.cleared = false) → (s.messages m).id = m + 1
  wrote : s.wrote = (List.range (s.i + s.producer.reported.toNat)).map (· + 1)

theorem stored_initial : Stored (initial length) := by
  constructor <;> simp [initial, Producer.stored, Producer.named, Producer.reported]

theorem byte_setByte {k : ℕ} (hk : k < msgSize) (m : Message) (b : Byte) (k' : ℕ) :
    (m.setByte k b).byte k' = if k = k' then b else m.byte k' := by
  simp only [Message.byte, Message.setByte, Vector.getElem?_setIfInBounds]
  by_cases h : k = k'
  · subst h
    simp [hk]
  · simp [h]

theorem setMessage_self (messages : ℕ → Message) (i : ℕ) (m : Message) :
    setMessage messages i m i = m := Function.update_self ..

theorem setMessage_of_ne {i i' : ℕ} (h : i' ≠ i) (messages : ℕ → Message) (m : Message) :
    setMessage messages i m i' = messages i' := Function.update_of_ne h ..

/-- The producer changes its own slot only. -/
theorem Stored.fill (h : Stored s) {p : Producer} {m : Message} {w : List ℕ}
    (hpart : ∀ k < p.stored s.i, m.byte k = (text s.i).getD k 0)
    (hinside : ∀ k, p = .print k → k ≤ (text s.i).length)
    (hid : p.named = true → s.j ≤ s.i → (s.i = s.j → s.consumer.cleared = false) → m.id = s.i + 1)
    (hwrote : w = (List.range (s.i + p.reported.toNat)).map (· + 1)) :
    Stored { s with messages := setMessage s.messages s.i m, producer := p, wrote := w } := by
  refine ⟨?_, ?_, hinside, ?_, hwrote⟩ <;> dsimp only
  · intro m' hm' k hk
    rw [setMessage_of_ne (Nat.ne_of_lt hm')]
    exact h.whole m' hm' k hk
  · intro k hk
    rw [setMessage_self]
    exact hpart k hk
  · intro m' hm' hj hc
    by_cases hmi : m' = s.i
    · subst hmi
      rw [setMessage_self]
      rcases hm' with hm' | ⟨-, hp⟩
      · exact absurd hm' (lt_irrefl _)
      · exact hid hp hj hc
    · rw [setMessage_of_ne hmi]
      apply h.id m' _ hj hc
      rcases hm' with hm' | hm'
      · exact Or.inl hm'
      · exact absurd hm'.1 hmi

theorem range_concat {α : Type} (f : ℕ → α) (n : ℕ) :
    (List.range n).map f ++ [f n] = (List.range (n + 1)).map f := by
  rw [List.range_succ, List.map_append, List.map_singleton]

theorem stored_produce (hn : Counted length s) (h : Stored s) : Stored (produce s) := by
  have hwrote := h.wrote
  have hid := h.id s.i
  cases hp : s.producer with
  | setId =>
    rw [hp] at hwrote
    simp only [produce, hp]
    exact h.fill (by simp [Producer.stored]) (by simp) (fun _ _ _ => rfl) hwrote
  | print k =>
    simp only [hp, Producer.named, Producer.reported] at hwrote hid
    have hinside := h.inside k hp
    have hk : k < msgSize := Nat.lt_of_le_of_lt hinside (text_length s.i)
    have hpart : ∀ k' < k + 1, ((s.messages s.i).setByte k ((text s.i).getD k 0)).byte k' =
        (text s.i).getD k' 0 := by
      intro k' hk'
      rw [byte_setByte hk]
      by_cases he : k = k'
      · simp [he]
      · rw [if_neg he]
        apply h.part
        simp only [hp, Producer.stored]
        omega
    simp only [produce, hp]
    by_cases hl : k < (text s.i).length
    · simp only [hl, if_true]
      refine h.fill hpart ?_ (fun _ => hid (by simp)) hwrote
      intro k' hk'
      cases hk'
      omega
    · have he : k = (text s.i).length := by omega
      simp only [hl, if_false]
      exact h.fill (he ▸ hpart) (by simp) (fun _ => hid (by simp)) hwrote
  | report =>
    simp only [hp, Producer.named, Producer.reported, Bool.toNat_false, Nat.add_zero] at hwrote hid
    have hnamed : (s.messages s.i).id = s.i + 1 := by
      apply hid (Or.inr ⟨trivial, trivial⟩) hn.le_written
      intro hj
      apply Consumer.cleared_of_waiting
      by_contra hc
      rw [Bool.not_eq_false] at hc
      exact Nat.ne_of_gt (hn.lt_written hc) hj
    obtain ⟨hwhole, hpart, hinside, hid, -⟩ := h
    simp only [hp] at hpart hinside hid
    simp only [produce, hp]
    refine ⟨hwhole, hpart, by simp, hid, ?_⟩
    dsimp only
    rw [hwrote, hnamed]
    exact range_concat (· + 1) s.i
  | postFull =>
    obtain ⟨hwhole, hpart, hinside, hid, -⟩ := h
    simp only [hp, Producer.stored, Producer.named, Producer.reported, Bool.toNat_true,
      and_true] at hwrote hid hpart
    simp only [produce, hp]
    refine ⟨?_, ?_, by simp, ?_, ?_⟩ <;> dsimp only
    · intro m hm k hk
      rcases Nat.lt_succ_iff_lt_or_eq.mp hm with hm | rfl
      · exact hwhole m hm k hk
      · exact hpart k (Nat.lt_succ_of_le hk)
    · intro k hk
      cases hk
    · intro m hm
      apply hid m
      simp only [Producer.named, Bool.false_eq_true, and_false, or_false] at hm
      omega
    · exact hwrote
  | _ =>
    rw [stored_iff] at h ⊢
    simpa [produce, hp, Producer.stored, Producer.named, Producer.reported] using h

theorem byte_clear (messages : ℕ → Message) (j m k : ℕ) :
    (setMessage messages j { messages j with id := 0 } m).byte k = (messages m).byte k := by
  by_cases hm : m = j
  · rw [hm, setMessage_self]
    rfl
  · rw [setMessage_of_ne hm]

theorem stored_consume (h : Stored s) : Stored (consume s) := by
  cases hc : s.consumer with
  | print k =>
    rw [stored_iff] at h ⊢
    by_cases hb : (s.messages s.j).byte k = 0 <;>
      simpa [consume, hc, hb, Consumer.cleared] using h
  | clearId =>
    obtain ⟨hwhole, hpart, hinside, hid, hwrote⟩ := h
    simp only [consume, hc]
    refine ⟨?_, ?_, hinside, ?_, hwrote⟩ <;> dsimp only
    · intro m hm k hk
      rw [byte_clear]
      exact hwhole m hm k hk
    · intro k hk
      rw [byte_clear]
      exact hpart k hk
    · intro m hm hj hcleared
      have hne : m ≠ s.j := by
        intro he
        cases hcleared he
      rw [setMessage_of_ne hne]
      exact hid m hm hj (absurd · hne)
  | postEmpty =>
    obtain ⟨hwhole, hpart, hinside, hid, hwrote⟩ := h
    simp only [consume, hc]
    refine ⟨hwhole, hpart, hinside, ?_, hwrote⟩
    dsimp only
    intro m hm hj _
    apply hid m hm (by omega)
    intro he
    omega
  | _ =>
    rw [stored_iff] at h ⊢
    simpa [consume, hc, Consumer.cleared] using h

/-! ## What the consumer reads -/

/-- `printf` has read the id and a first part of the text of the slot `j`. -/
structure Reading (s : State) : Prop where
  part : ∀ k, s.consumer = .print k →
    s.gotId = s.j + 1 ∧ k ≤ (text s.j).length ∧ s.got = (text s.j).take k
  output : s.output = (List.range (s.j + s.consumer.printed.toNat)).map message

theorem reading_initial : Reading (initial length) := by
  constructor <;> simp [initial, Consumer.printed]

theorem reading_produce (h : Reading s) : Reading (produce s) := by
  obtain ⟨hpart, houtput⟩ := h
  cases hp : s.producer <;> simp only [produce, hp] <;> exact ⟨hpart, houtput⟩

theorem reading_consume (hn : Counted length s) (hs : Stored s) (h : Reading s) :
    Reading (consume s) := by
  have houtput := h.output
  cases hc : s.consumer with
  | readId =>
    rw [hc] at houtput
    have hj : s.j < s.i := hn.lt_written (by rw [hc]; rfl)
    have hid := hs.id s.j (Or.inl hj) le_rfl (fun _ => by rw [hc]; rfl)
    simp only [consume, hc]
    refine ⟨?_, houtput⟩
    dsimp only
    intro k hk
    cases hk
    exact ⟨hid, Nat.zero_le _, rfl⟩
  | print k =>
    rw [hc] at houtput
    have hj : s.j < s.i := hn.lt_written (by rw [hc]; rfl)
    obtain ⟨hid, hk, hgot⟩ := h.part k hc
    have hbyte := hs.whole s.j hj k hk
    simp only [consume, hc]
    rw [hbyte]
    by_cases hend : k = (text s.j).length
    · rw [if_pos (by simp [hend])]
      refine ⟨by simp, ?_⟩
      dsimp only
      rw [hend, List.take_length] at hgot
      rw [houtput, hid, hgot]
      exact range_concat message s.j
    · have hlt : k < (text s.j).length := by omega
      have hget : (text s.j).getD k 0 = (text s.j)[k] := List.getD_eq_getElem _ _ hlt
      have hnz : (text s.j)[k] ≠ 0 := fun hz => text_noNul s.j (hz ▸ List.getElem_mem hlt)
      rw [hget, if_neg hnz]
      refine ⟨?_, houtput⟩
      dsimp only
      intro k' hk'
      cases hk'
      refine ⟨hid, hlt, ?_⟩
      rw [hgot, List.take_append_getElem]
  | postEmpty =>
    rw [hc] at houtput
    simp only [consume, hc]
    exact ⟨by simp, houtput⟩
  | _ =>
    rw [hc] at houtput
    simp only [consume, hc]
    exact ⟨by simp, houtput⟩

/-! ## Every interleaving -/

structure Invariant (length : ℕ) (s : State) : Prop where
  counted : Counted length s
  stored : Stored s
  reading : Reading s

theorem invariant_next (h : Invariant length s) (he : Enabled length s e) :
    Invariant length (next s e) := by
  refine ⟨counted_next h.counted he, ?_, ?_⟩
  · cases e with
    | produce => exact stored_produce h.counted h.stored
    | consume => exact stored_consume h.stored
  · cases e with
    | produce => exact reading_produce h.reading
    | consume => exact reading_consume h.counted h.stored h.reading

theorem invariant_run {es : List Event} (h : (machine length).Valid es) :
    Invariant length ((machine length).run es) :=
  Machine.invariant ⟨counted_initial, stored_initial, reading_initial⟩
    (fun _ _ => invariant_next) h

theorem Consumer.draining_of_printed {c : Consumer} (h : c.printed = true) :
    c.draining = true := by
  cases c <;> first | rfl | cases h

theorem Invariant.printed_le (h : Invariant length s) :
    s.j + s.consumer.printed.toNat ≤ s.i := by
  cases hc : s.consumer.printed with
  | false => exact h.counted.le_written
  | true => exact h.counted.lt_written (Consumer.draining_of_printed hc)

/-- A message is read only when its writing is over. -/
theorem Invariant.written (h : Invariant length s) : s.output.map Prod.fst <+: s.wrote := by
  have hle : s.j + s.consumer.printed.toNat ≤ s.i + s.producer.reported.toNat :=
    Nat.le_add_right_of_le h.printed_le
  rw [h.reading.output, h.stored.wrote, List.map_map]
  exact (Channel.prefix_range hle).map (· + 1)

theorem Invariant.allRead (h : Invariant length s) (hstuck : ∀ e, ¬ Enabled length s e) :
    s.output = (List.range length).map message := by
  obtain ⟨hi, hj⟩ := h.counted.finished hstuck
  have hle := h.printed_le
  have hprinted : s.j + s.consumer.printed.toNat = length := by omega
  rw [h.reading.output, hprinted]

theorem Invariant.handedOver (h : Invariant length s) : HandedOver length s where
  exclusive := h.counted.exclusive
  balanced := h.counted.balanced
  inOrder := by
    have hout := h.reading.output
    rw [hout, List.length_map, List.length_range]
  written := h.written
  allRead := h.allRead

/-- Whatever the interleaving, the two exclude each other and hand over every message whole. -/
theorem handed_over (length : ℕ) {es : List Event} (h : (machine length).Valid es) :
    HandedOver length ((machine length).run es) := (invariant_run h).handedOver

/-- The second message is begun while the first one is still to be read. -/
theorem handed_over_two : HandedOver 2 ((machine 2).run (List.replicate 55 .produce ++
    List.replicate 53 .consume ++ List.replicate 53 .produce ++ List.replicate 55 .consume)) :=
  handed_over 2 (by decide +kernel)

end SharedQueue
