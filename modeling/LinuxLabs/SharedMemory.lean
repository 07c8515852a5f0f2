import LinuxLabs.SharedQueue

/-! # The shared messages without a semaphore (IPC lab 04)
The consumer polls the id of a message, which the producer stores before the text. As in lab 05
every access to a field is a step, and `snprintf` and `printf` go over the text byte by byte. -/
namespace SharedMemory

open Execution CString
open SharedQueue (Message msgSize setMessage)

def text (i : ℕ) : List Byte :=
  snprintf msgSize (ascii "Hello Child via shared memory " ++ decimal (i + 1))

inductive Producer where
  | setId (i : ℕ)
  | print (i k : ℕ)
  | report (i : ℕ)
  | wait
  | exited
  deriving DecidableEq

inductive Consumer where
  | poll (i : ℕ)
  | readId (i : ℕ)
  | print (i k : ℕ)
  | exit
  | exited
  deriving DecidableEq

structure State where
  messages : ℕ → Message
  producer : Producer
  wrote : List ℕ
  consumer : Consumer
  gotId : ℕ
  got : List Byte
  output : List (ℕ × List Byte)

def Producer.loop (length i : ℕ) : Producer := if i < length then .setId i else .wait

def Consumer.loop (length i : ℕ) : Consumer := if i < length then .poll i else .exit

/-- `mmap` returns zeroed memory. -/
def initial (length : ℕ) : State where
  messages _ := ⟨0, Vector.replicate msgSize 0⟩
  producer := .loop length 0
  wrote := []
  consumer := .loop length 0
  gotId := 0
  got := []
  output := []

def produce (length : ℕ) (s : State) : State :=
  match s.producer with
  | .setId i =>
    { s with
      messages := setMessage s.messages i { s.messages i with id := i + 1 }
      producer := .print i 0 }
  | .print i k =>
    { s with
      messages := setMessage s.messages i ((s.messages i).setByte k ((text i).getD k 0))
      producer := if k < (text i).length then .print i (k + 1) else .report i }
  | .report i =>
    { s with wrote := s.wrote ++ [(s.messages i).id], producer := .loop length (i + 1) }
  | .wait => { s with producer := .exited }
  | .exited => s

/-- A poll that finds no id sleeps and comes again. -/
def consume (length : ℕ) (s : State) : State :=
  match s.consumer with
  | .poll i => if (s.messages i).id = 0 then s else { s with consumer := .readId i }
  | .readId i => { s with gotId := (s.messages i).id, got := [], consumer := .print i 0 }
  | .print i k =>
    let b := (s.messages i).byte k
    if b = 0 then
      { s with output := s.output ++ [(s.gotId, s.got)], consumer := .loop length (i + 1) }
    else { s with got := s.got ++ [b], consumer := .print i (k + 1) }
  | .exit => { s with consumer := .exited }
  | .exited => s

inductive Event where
  | produce
  | consume
  deriving DecidableEq

/-- Only the parent's `wait` blocks. -/
def Enabled (s : State) : Event → Prop
  | .produce => s.producer ≠ .exited ∧ (s.producer = .wait → s.consumer = .exited)
  | .consume => s.consumer ≠ .exited

def next (length : ℕ) (s : State) : Event → State
  | .produce => produce length s
  | .consume => consume length s

def machine (length : ℕ) : Machine State Event := ⟨initial length, Enabled, next length⟩

instance (length : ℕ) (s : State) (e : Event) : Decidable ((machine length).Enabled s e) := by
  simp only [machine]
  casesm Event <;> simp only [Enabled] <;> infer_instance

/-! ## How much of a message is there -/

def Producer.round (length : ℕ) : Producer → ℕ
  | .setId i | .print i _ | .report i => i
  | .wait | .exited => length

def Producer.named : Producer → Bool
  | .print _ _ | .report _ => true
  | _ => false

def Producer.part : Producer → ℕ
  | .print _ k => k
  | .report i => (text i).length
  | _ => 0

/-- How many bytes of the text of the message `m` the producer has stored. -/
def Producer.stored (length : ℕ) (p : Producer) (m : ℕ) : ℕ :=
  if m < p.round length then (text m).length else if m = p.round length then p.part else 0

def Consumer.round (length : ℕ) : Consumer → ℕ
  | .poll i | .readId i | .print i _ => i
  | .exit | .exited => length

/-- At the terminator that ends a line: how much of its text was there then. -/
def ends (length : ℕ) (s : State) : Event → List ℕ
  | .produce => []
  | .consume =>
    match s.consumer with
    | .print i k => if (s.messages i).byte k = 0 then [s.producer.stored length i] else []
    | _ => []

/-- The polls that find no id. -/
def idle (s : State) : Event → List ℕ
  | .produce => []
  | .consume =>
    match s.consumer with
    | .poll i => if (s.messages i).id = 0 then [i] else []
    | _ => []

/-- The line of the message `i` when `m` bytes of its text were there. -/
def line (i m : ℕ) : ℕ × List Byte := (i + 1, (text i).take m)

def Producer.Fits (length : ℕ) : Producer → Prop
  | .setId i | .report i => i < length
  | .print i k => i < length ∧ k ≤ (text i).length
  | .wait | .exited => True

def Consumer.Fits (length : ℕ) : Consumer → Prop
  | .poll i | .readId i | .print i _ => i < length
  | .exit | .exited => True

/-- What the consumer has in hand of the message it is at. -/
def Reading (length : ℕ) (s : State) : Prop :=
  match s.consumer with
  | .readId i => (s.messages i).id ≠ 0
  | .print i k => s.gotId = i + 1 ∧ k ≤ s.producer.stored length i ∧ s.got = (text i).take k
  | _ => True

/-- The memory holds what the producer has stored until now, and is zero elsewhere. -/
structure Filled (length : ℕ) (messages : ℕ → Message) (p : Producer) : Prop where
  byte : ∀ m k, (messages m).byte k = ((text m).take (p.stored length m)).getD k 0
  id : ∀ m, (messages m).id =
    if m < p.round length ∨ m = p.round length ∧ p.named then m + 1 else 0

/-- `l` is what was there at the ends of the lines so far. -/
structure Invariant (length : ℕ) (s : State) (l : List ℕ) : Prop where
  producer : s.producer.Fits length
  consumer : s.consumer.Fits length
  filled : Filled length s.messages s.producer
  wrote : s.wrote = (List.range (s.producer.round length)).map (· + 1)
  reading : Reading length s
  output : s.output = l.mapIdx line
  lines : l.length = s.consumer.round length
  bound : ∀ i m, l[i]? = some m → m ≤ (text i).length

variable {length : ℕ} {s : State} {l : List ℕ}

theorem text_noNul (i : ℕ) : (0 : Byte) ∉ text i := by
  apply snprintf_noNul
  rw [List.mem_append, not_or]
  exact ⟨by decide, decimal_noNul _⟩

theorem text_length (i : ℕ) : (text i).length < msgSize := snprintf_length_lt (by decide) _

theorem Producer.loop_spec {i : ℕ} (h : i ≤ length) :
    (Producer.loop length i).round length = i ∧ (Producer.loop length i).named = false ∧
      (Producer.loop length i).part = 0 ∧ (Producer.loop length i).Fits length := by
  unfold Producer.loop
  split
  · next hlt => exact ⟨rfl, rfl, rfl, hlt⟩
  · next hge =>
    obtain rfl : i = length := by omega
    exact ⟨rfl, rfl, rfl, trivial⟩

theorem Consumer.loop_spec {i : ℕ} (h : i ≤ length) :
    (Consumer.loop length i).round length = i ∧ (Consumer.loop length i).Fits length := by
  unfold Consumer.loop
  split
  · next hlt => exact ⟨rfl, hlt⟩
  · next hge =>
    obtain rfl : i = length := by omega
    exact ⟨rfl, trivial⟩

theorem reading_loop {i : ℕ} (h : s.consumer = .loop length i) : Reading length s := by
  unfold Reading
  rw [h, Consumer.loop]
  split_ifs <;> trivial

theorem Producer.part_le {p : Producer} (h : p.Fits length) :
    p.part ≤ (text (p.round length)).length := by
  cases p with
  | print i k => exact h.2
  | report i => exact le_rfl
  | _ => exact Nat.zero_le _

theorem Producer.stored_le {p : Producer} (h : p.Fits length) (m : ℕ) :
    p.stored length m ≤ (text m).length := by
  unfold Producer.stored
  split_ifs with hlt heq
  · exact le_rfl
  · exact heq ▸ Producer.part_le h
  · exact Nat.zero_le _

/-- A producer that is further on has stored at least as much of every message. -/
theorem Producer.stored_mono {p q : Producer} (hp : p.Fits length)
    (h : p.round length < q.round length ∨ p.round length = q.round length ∧ p.part ≤ q.part)
    (m : ℕ) : p.stored length m ≤ q.stored length m := by
  have hle := Producer.stored_le hp m
  unfold Producer.stored at hle ⊢
  rcases h with hlt | ⟨heq, hpart⟩
  · by_cases hm : m < q.round length
    · rwa [if_pos hm]
    · rw [if_neg (by omega), if_neg (by omega)]
      exact Nat.zero_le _
  · rw [← heq]
    split_ifs
    · exact le_rfl
    · exact hpart
    · exact le_rfl

theorem named_setMessage {messages : ℕ → Message} {i : ℕ} {x : Message}
    (h : (messages i).id ≠ 0 → x.id ≠ 0) (m : ℕ) (hm : (messages m).id ≠ 0) :
    (setMessage messages i x m).id ≠ 0 := by
  by_cases hmi : m = i
  · subst hmi
    rw [SharedQueue.setMessage_self]
    exact h hm
  · rwa [SharedQueue.setMessage_of_ne hmi]

theorem byte_zero (k : ℕ) : (⟨0, Vector.replicate msgSize 0⟩ : Message).byte k = 0 := by
  simp only [Message.byte, Vector.getElem?_replicate]
  split <;> rfl

theorem invariant_initial : Invariant length (initial length) [] := by
  obtain ⟨hround, hnamed, hpart, hfits⟩ := Producer.loop_spec (Nat.zero_le length)
  obtain ⟨hround', hfits'⟩ := Consumer.loop_spec (Nat.zero_le length)
  have hstored : ∀ m, (Producer.loop length 0).stored length m = 0 := fun m => by
    simp only [Producer.stored, hround, hpart, Nat.not_lt_zero, if_false, ite_self]
  refine ⟨hfits, hfits', ⟨fun m k => ?_, fun m => ?_⟩, ?_, reading_loop rfl, rfl, hround'.symm, ?_⟩
  · simp only [initial, hstored, List.take_zero, byte_zero, List.getD_nil]
  · simp only [initial, hround, hnamed, Nat.not_lt_zero, Bool.false_eq_true, and_false, or_false,
      if_false]
  · simp only [initial, hround, List.range_zero, List.map_nil]
  · intro i m hm
    cases hm

/-! ## The producer -/

/-- A step of the producer adds to what is stored. -/
theorem Reading.mono {messages : ℕ → Message} {p : Producer} {w : List ℕ} (h : Reading length s)
    (hnamed : ∀ m, (s.messages m).id ≠ 0 → (messages m).id ≠ 0)
    (hstored : ∀ m, s.producer.stored length m ≤ p.stored length m) :
    Reading length { s with messages := messages, producer := p, wrote := w } := by
  unfold Reading at h ⊢
  dsimp only
  cases hs : s.consumer <;> simp only [hs] at h ⊢
  case readId i => exact hnamed i h
  case print i k =>
    obtain ⟨h₁, h₂, h₃⟩ := h
    exact ⟨h₁, h₂.trans (hstored i), h₃⟩

theorem getD_take_succ (x : List Byte) (k j : ℕ) :
    (if k = j then x.getD k 0 else (x.take k).getD j 0) = (x.take (k + 1)).getD j 0 := by
  simp only [List.getD_eq_getElem?_getD, List.getElem?_take]
  split_ifs with h₁ h₂ h₃ h₄ <;> first | rfl | omega | (subst h₁; rfl)

theorem Filled.name {messages : ℕ → Message} {i : ℕ}
    (h : Filled length messages (.setId i)) :
    Filled length (setMessage messages i { messages i with id := i + 1 }) (.print i 0) := by
  refine ⟨fun m k => ?_, fun m => ?_⟩
  · have hbyte := h.byte m k
    by_cases hm : m = i
    · subst hm
      rw [SharedQueue.setMessage_self]
      exact hbyte
    · rw [SharedQueue.setMessage_of_ne hm]
      exact hbyte
  · have hid := h.id m
    simp only [Producer.round, Producer.named] at hid ⊢
    by_cases hm : m = i
    · subst hm
      rw [SharedQueue.setMessage_self, if_pos (Or.inr ⟨rfl, trivial⟩)]
    · rw [SharedQueue.setMessage_of_ne hm, hid]
      simp only [hm, false_and, or_false]

theorem Filled.store {messages : ℕ → Message} {i k : ℕ}
    (h : Filled length messages (.print i k)) (hk : k ≤ (text i).length) :
    Filled length (setMessage messages i ((messages i).setByte k ((text i).getD k 0)))
      (if k < (text i).length then .print i (k + 1) else .report i) := by
  have hsize : k < msgSize := Nat.lt_of_le_of_lt hk (text_length i)
  have hround : ∀ p : Producer, p = (if k < (text i).length then .print i (k + 1) else .report i) →
      p.round length = i ∧ p.named = true ∧ (text i).take p.part = (text i).take (k + 1) := by
    intro p hp
    split at hp
    · subst hp
      exact ⟨rfl, rfl, rfl⟩
    · next hge =>
      subst hp
      refine ⟨rfl, rfl, ?_⟩
      rw [Producer.part, List.take_length, List.take_of_length_le (by omega)]
  obtain ⟨hr, hn, hpart⟩ := hround _ rfl
  refine ⟨fun m j => ?_, fun m => ?_⟩
  · have hbyte := h.byte m j
    simp only [Producer.stored, hr] at hbyte ⊢
    by_cases hm : m = i
    · subst hm
      rw [SharedQueue.setMessage_self, SharedQueue.byte_setByte hsize, hbyte]
      simp only [Producer.round, Nat.lt_irrefl, if_false, if_true, hpart]
      exact getD_take_succ (text m) k j
    · rw [SharedQueue.setMessage_of_ne hm, hbyte]
      simp only [Producer.round, hm, if_false]
  · have hid := h.id m
    rw [hr, hn]
    by_cases hm : m = i
    · subst hm
      rw [SharedQueue.setMessage_self]
      exact hid
    · rw [SharedQueue.setMessage_of_ne hm]
      exact hid

theorem Filled.finish {messages : ℕ → Message} {i : ℕ} (h : Filled length messages (.report i))
    (hi : i < length) : Filled length messages (.loop length (i + 1)) := by
  obtain ⟨hr, hn, hp, -⟩ := Producer.loop_spec (Nat.succ_le_of_lt hi)
  refine ⟨fun m k => ?_, fun m => ?_⟩
  · have hbyte := h.byte m k
    have hsame : (Producer.loop length (i + 1)).stored length m =
        (Producer.report i).stored length m := by
      have hr' : (Producer.report i).round length = i := rfl
      simp only [Producer.stored, hr, hr', hp, ite_self]
      rcases Nat.lt_trichotomy m i with hlt | rfl | hgt
      · rw [if_pos (by omega), if_pos hlt]
      · rw [if_pos (Nat.lt_succ_self m), if_neg (Nat.lt_irrefl m), if_pos rfl, Producer.part]
      · rw [if_neg (by omega), if_neg (by omega), if_neg (by omega)]
    rw [hsame]
    exact hbyte
  · have hid := h.id m
    have hid' : (messages m).id = if m < i ∨ m = i then m + 1 else 0 := by
      simpa only [Producer.round, Producer.named, and_true] using hid
    rw [hid', hr, hn]
    simp only [Bool.false_eq_true, and_false, or_false, Nat.lt_succ_iff_lt_or_eq]

theorem invariant_produce (h : Invariant length s l) (he : Enabled s .produce) :
    Invariant length (produce length s) l := by
  obtain ⟨hproducer, hconsumer, hfilled, hwrote, hreading, houtput, hlines, hbound⟩ := id h
  obtain ⟨hlive, -⟩ := he
  have hmono : ∀ q : Producer, s.producer.round length < q.round length ∨
      s.producer.round length = q.round length ∧ s.producer.part ≤ q.part →
      ∀ m, s.producer.stored length m ≤ q.stored length m := fun q =>
    Producer.stored_mono hproducer
  unfold produce
  cases hp : s.producer <;> dsimp only <;> rw [hp] at hproducer hfilled hwrote hmono
  case setId i =>
    refine ⟨⟨hproducer, Nat.zero_le _⟩, hconsumer, hfilled.name, hwrote, ?_, houtput, hlines,
      hbound⟩
    apply hreading.mono
    · exact named_setMessage fun _ => Nat.succ_ne_zero i
    · rw [hp]
      exact hmono _ (Or.inr ⟨rfl, le_rfl⟩)
  case print i k =>
    obtain ⟨hi, hk⟩ := hproducer
    have hstored := hfilled.store hk
    have hnext : ∀ p : Producer,
        p = (if k < (text i).length then .print i (k + 1) else .report i) →
        p.Fits length ∧ p.round length = i ∧ k ≤ p.part := by
      intro p hp
      split at hp
      · next hlt =>
        subst hp
        exact ⟨⟨hi, hlt⟩, rfl, Nat.le_succ k⟩
      · subst hp
        exact ⟨hi, rfl, hk⟩
    obtain ⟨hfits, hround, hpart⟩ := hnext _ rfl
    refine ⟨hfits, hconsumer, hstored, ?_, ?_, houtput, hlines, hbound⟩
    · rw [hround]
      exact hwrote
    · apply hreading.mono
      · exact named_setMessage id
      · rw [hp]
        exact hmono _ (Or.inr ⟨hround.symm, hpart⟩)
  case report i =>
    obtain ⟨hr, -, -, hfits⟩ := Producer.loop_spec (Nat.succ_le_of_lt hproducer)
    have hid := hfilled.id i
    rw [if_pos (Or.inr ⟨rfl, rfl⟩)] at hid
    refine ⟨hfits, hconsumer, hfilled.finish hproducer, ?_, ?_, houtput, hlines, hbound⟩
    · rw [hr, hid, hwrote]
      exact SharedQueue.range_concat (· + 1) i
    · refine hreading.mono (fun m hm => hm) ?_
      rw [hp]
      apply hmono
      rw [hr]
      exact Or.inl (Nat.lt_succ_self i)
  case wait =>
    refine ⟨trivial, hconsumer, ⟨hfilled.byte, hfilled.id⟩, hwrote, ?_, houtput, hlines, hbound⟩
    refine hreading.mono (fun m hm => hm) ?_
    rw [hp]
    exact hmono _ (Or.inr ⟨rfl, le_rfl⟩)
  case exited => exact absurd hp hlive

/-! ## The consumer -/

theorem Filled.stored_of_byte {messages : ℕ → Message} {p : Producer} {i k : ℕ}
    (h : Filled length messages p) (hp : p.Fits length) (hk : k ≤ p.stored length i) :
    (messages i).byte k = 0 ↔ k = p.stored length i := by
  have hle := p.stored_le hp i
  rw [h.byte i k]
  constructor
  · intro hz
    by_contra hne
    have hlt : k < ((text i).take (p.stored length i)).length := by
      rw [List.length_take]
      omega
    rw [List.getD_eq_getElem _ _ hlt] at hz
    exact text_noNul i (hz ▸ List.mem_of_mem_take (List.getElem_mem hlt))
  · rintro rfl
    apply List.getD_eq_default
    rw [List.length_take]
    exact Nat.min_le_left ..

theorem invariant_consume (h : Invariant length s l) (he : Enabled s .consume) :
    Invariant length (consume length s) (l ++ ends length s .consume) := by
  obtain ⟨hproducer, hconsumer, hfilled, hwrote, hreading, houtput, hlines, hbound⟩ := id h
  unfold consume ends
  cases hc : s.consumer <;> dsimp only
  case poll i =>
    rw [List.append_nil]
    split_ifs with hid
    · exact h
    · rw [hc] at hconsumer hlines
      exact ⟨hproducer, hconsumer, hfilled, hwrote, hid, houtput, hlines, hbound⟩
  case readId i =>
    rw [hc] at hconsumer hlines
    simp only [Reading, hc] at hreading
    rw [List.append_nil]
    refine ⟨hproducer, hconsumer, hfilled, hwrote, ⟨?_, Nat.zero_le _, rfl⟩, houtput, hlines,
      hbound⟩
    have hid := hfilled.id i
    dsimp only
    split_ifs at hid
    · exact hid
    · exact absurd hid hreading
  case print i k =>
    rw [hc] at hconsumer hlines
    simp only [Reading, hc] at hreading
    obtain ⟨hid, hk, hgot⟩ := hreading
    have hend := hfilled.stored_of_byte hproducer hk
    split_ifs with hb
    · obtain ⟨hr, hfits⟩ := Consumer.loop_spec (Nat.succ_le_of_lt hconsumer)
      rw [← hend.mp hb]
      refine ⟨hproducer, hfits, hfilled, hwrote, reading_loop rfl, ?_, ?_, ?_⟩
      · have hi : l.length = i := hlines
        rw [List.mapIdx_concat, hi, houtput, line, hid, hgot]
      · rw [List.length_append, hlines, hr]
        rfl
      · intro j m hm
        rw [List.getElem?_append] at hm
        split_ifs at hm with hj
        · exact hbound j m hm
        · obtain ⟨hj', rfl⟩ := List.getElem?_eq_some_iff.mp hm
          have hji : j = i := by
            rw [List.length_singleton] at hj'
            have hi : l.length = i := hlines
            omega
          rw [List.getElem_singleton, hji]
          exact hk.trans (Producer.stored_le hproducer i)
    · have hlt : k < s.producer.stored length i := by
        have hne := mt hend.mpr hb
        omega
      have hlen : k < (text i).length := hlt.trans_le (Producer.stored_le hproducer i)
      rw [List.append_nil]
      refine ⟨hproducer, hconsumer, hfilled, hwrote, ⟨hid, hlt, ?_⟩, houtput, hlines, hbound⟩
      have hbyte : (s.messages i).byte k = (text i)[k] := by
        rw [hfilled.byte i k, List.getD_eq_getElem _ _ (by rw [List.length_take]; omega),
          List.getElem_take]
      dsimp only
      rw [hbyte, hgot, List.take_append_getElem]
  case exit =>
    rw [hc] at hlines
    rw [List.append_nil]
    exact ⟨hproducer, trivial, hfilled, hwrote, trivial, houtput, hlines, hbound⟩
  case exited => exact absurd hc he

/-! ## Every interleaving -/

/-- Steps that lie behind a producer at this position, at most. -/
def Producer.bound (length : ℕ) : Producer → ℕ
  | .setId i => 66 * i
  | .print i k => 66 * i + 1 + k
  | .report i => 66 * i + 65
  | .wait => 66 * length
  | .exited => 66 * length + 1

def Consumer.bound (length : ℕ) : Consumer → ℕ
  | .poll i => 66 * i
  | .readId i => 66 * i + 1
  | .print i k => 66 * i + 2 + k
  | .exit => 66 * length
  | .exited => 66 * length + 1

theorem Producer.loop_bound {i : ℕ} (h : i ≤ length) :
    (Producer.loop length i).bound length = 66 * i := by
  unfold Producer.loop
  split
  · rfl
  · rw [Producer.bound]
    omega

theorem Consumer.loop_bound {i : ℕ} (h : i ≤ length) :
    (Consumer.loop length i).bound length = 66 * i := by
  unfold Consumer.loop
  split
  · rfl
  · rw [Consumer.bound]
    omega

theorem bound_produce (h : Invariant length s l) (he : Enabled s .produce) :
    s.producer.bound length + 1 ≤ (produce length s).producer.bound length ∧
      (produce length s).consumer = s.consumer := by
  have hfits := h.producer
  obtain ⟨hlive, -⟩ := he
  unfold produce
  cases hp : s.producer <;> dsimp only <;> rw [hp] at hfits <;> refine ⟨?_, rfl⟩
  case setId i => simp only [Producer.bound]; omega
  case print i k =>
    have hlen := text_length i
    obtain ⟨-, hk⟩ := hfits
    unfold msgSize at hlen
    split_ifs <;> simp only [Producer.bound] <;> omega
  case report i =>
    rw [Producer.loop_bound (Nat.succ_le_of_lt hfits), Producer.bound]
    omega
  case wait => simp only [Producer.bound]; omega
  case exited => exact absurd hp hlive

/-- Every step of the consumer takes it on, but for a poll in vain. -/
theorem bound_consume (h : Invariant length s l) (he : Enabled s .consume) :
    s.consumer.bound length + 1 ≤
        (consume length s).consumer.bound length + (idle s .consume).length ∧
      (consume length s).producer = s.producer := by
  have hfits := h.consumer
  have hreading := h.reading
  unfold consume idle
  cases hc : s.consumer <;> dsimp only <;> rw [hc] at hfits
  case poll i =>
    split_ifs
    · rw [hc]
      exact ⟨le_rfl, rfl⟩
    · exact ⟨le_rfl, rfl⟩
  case readId i => exact ⟨le_rfl, rfl⟩
  case print i k =>
    simp only [Reading, hc] at hreading
    have hlen := text_length i
    have hle := hreading.2.1.trans (Producer.stored_le h.producer i)
    unfold msgSize at hlen
    split_ifs
    · refine ⟨?_, rfl⟩
      rw [Consumer.loop_bound (Nat.succ_le_of_lt hfits), Consumer.bound]
      omega
    · exact ⟨le_rfl, rfl⟩
  case exit => exact ⟨le_rfl, rfl⟩
  case exited => exact absurd hc he

theorem Producer.bound_le {p : Producer} (h : p.Fits length) :
    p.bound length ≤ 66 * length + 1 := by
  cases p with
  | print i k =>
    have hlen := text_length i
    obtain ⟨hi, hk⟩ := h
    unfold msgSize at hlen
    simp only [Producer.bound]
    omega
  | setId i =>
    have hi : i < length := h
    simp only [Producer.bound]
    omega
  | report i =>
    have hi : i < length := h
    simp only [Producer.bound]
    omega
  | wait => exact Nat.le_succ _
  | exited => exact le_rfl

theorem Invariant.consumer_bound_le (h : Invariant length s l) :
    s.consumer.bound length ≤ 66 * length + 1 := by
  have hfits := h.consumer
  have hreading := h.reading
  cases hc : s.consumer with
  | print i k =>
    simp only [Reading, hc] at hreading
    have hlen := text_length i
    have hle := hreading.2.1.trans (Producer.stored_le h.producer i)
    have hi : i < length := by rwa [hc] at hfits
    unfold msgSize at hlen
    simp only [Consumer.bound]
    omega
  | poll i =>
    have hi : i < length := by rwa [hc] at hfits
    simp only [Consumer.bound]
    omega
  | readId i =>
    have hi : i < length := by rwa [hc] at hfits
    simp only [Consumer.bound]
    omega
  | exit => exact Nat.le_succ _
  | exited => exact le_rfl

/-- After a run: the lines came in order, each with the text that was there when its terminator was
read; apart from polls in vain the run is bounded; and it can end only when all is printed. -/
structure PrintedAsStored (length : ℕ) (es : List Event) (s : State) (ends idle : List ℕ) :
    Prop where
  lines : s.output = ends.mapIdx line
  torn : ∀ i m, ends[i]? = some m → m ≤ (text i).length
  wrote : s.wrote <+: (List.range length).map (· + 1)
  bounded : es.length ≤ 132 * length + 2 + idle.length
  finished : (∀ e, ¬ Enabled s e) → ends.length = length ∧ s.wrote.length = length

theorem Producer.round_le {p : Producer} (h : p.Fits length) : p.round length ≤ length := by
  cases p with
  | setId i => exact Nat.le_of_lt h
  | print i k => exact Nat.le_of_lt h.1
  | report i => exact Nat.le_of_lt h
  | _ => exact le_rfl

theorem Invariant.finished (h : Invariant length s l) (hstuck : ∀ e, ¬ Enabled s e) :
    l.length = length ∧ s.wrote.length = length := by
  have hconsumer : s.consumer = .exited := not_not.mp (hstuck .consume)
  have hproducer : s.producer = .exited := by
    by_contra hlive
    exact hstuck .produce ⟨hlive, fun _ => hconsumer⟩
  rw [h.lines, h.wrote, hconsumer, hproducer, List.length_map, List.length_range]
  exact ⟨rfl, rfl⟩

theorem printed_as_stored (length : ℕ) {es : List Event} (h : (machine length).Valid es) :
    PrintedAsStored length es ((machine length).run es) ((machine length).observe (ends length) es)
      ((machine length).observe idle es) := by
  have hinv : Invariant length ((machine length).run es)
        ((machine length).observe (ends length) es) ∧
      es.length ≤ ((machine length).run es).producer.bound length +
        ((machine length).run es).consumer.bound length +
        ((machine length).observe idle es).length := by
    induction es using List.reverseRecOn with
    | nil => exact ⟨invariant_initial, Nat.zero_le _⟩
    | append_singleton es e ih =>
      obtain ⟨hv, he⟩ := (Machine.valid_concat es e).mp h
      obtain ⟨hi, hb⟩ := ih hv
      rw [Machine.run_concat, Machine.observe_concat, Machine.observe_concat, List.length_append,
        List.length_append, List.length_singleton]
      generalize (machine length).run es = s at he hi hb ⊢
      cases e with
      | produce =>
        obtain ⟨hstep, hother⟩ := bound_produce hi he
        refine ⟨?_, ?_⟩
        · rw [show ends length s .produce = [] from rfl, List.append_nil]
          exact invariant_produce hi he
        · change _ ≤ (produce length s).producer.bound length +
            (produce length s).consumer.bound length + _
          rw [hother]
          omega
      | consume =>
        obtain ⟨hstep, hother⟩ := bound_consume hi he
        refine ⟨invariant_consume hi he, ?_⟩
        change _ ≤ (consume length s).producer.bound length +
          (consume length s).consumer.bound length + _
        rw [hother]
        omega
  obtain ⟨hi, hb⟩ := hinv
  refine ⟨hi.output, hi.bound, ?_, ?_, hi.finished⟩
  · rw [hi.wrote]
    exact (Channel.prefix_range (Producer.round_le hi.producer)).map (· + 1)
  · have hp := Producer.bound_le hi.producer
    have hc := hi.consumer_bound_le
    omega

/-- The consumer reads the first message when three bytes of its text are there, and the second one
whole. -/
def tornRun : List Event :=
  .consume :: List.replicate 4 .produce ++ List.replicate 6 .consume ++
    List.replicate 64 .produce ++ List.replicate 35 .consume ++ [.produce]

theorem printed_as_stored_torn :
    PrintedAsStored 2 tornRun ((machine 2).run tornRun) ((machine 2).observe (ends 2) tornRun)
        ((machine 2).observe idle tornRun) ∧
      (machine 2).observe (ends 2) tornRun = [3, 31] :=
  ⟨printed_as_stored 2 (by decide +kernel), by decide +kernel⟩

end SharedMemory
