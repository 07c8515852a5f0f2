import LinuxLabs.CommandChatServer
import Mathlib.Logic.Function.Basic

/-! # Private messages go to one client
The table's order and the names that others choose decide who gets a `/msg`: the first client
whose stored name is the first word of the argument. A name that was acknowledged is stored,
cut to the array; nothing keeps two clients from having the same. -/
namespace PrivateMessages

open Execution CString KeyedTable CommandChatServer

/-- The name each client was last told it has, read off its own `/nick` commands. -/
def acknowledge (a : Fd → Option (List Byte)) : Event → Fd → Option (List Byte)
  | .accept fd => Function.update a fd none
  | .acceptFailed | .hangup _ => a
  | .receive fd buf =>
    match commandOf buf with
    | .nick name => Function.update a fd (some name)
    | _ => a

def acknowledged (es : List Event) : Fd → Option (List Byte) := es.foldl acknowledge fun _ => none

def storedName (a : Option (List Byte)) : List Byte := (a.getD []).take (nameLen - 1)

/-- The table holds the names that were acknowledged, as far as they fit. -/
structure Named (s : Server) (a : Fd → Option (List Byte)) : Prop where
  stored : ∀ c ∈ s.clients, c.name.text = storedName (a c.fd)
  noNul : ∀ fd name, a fd = some name → (0 : Byte) ∉ name

def msgChunk (pad word text tail : List Byte) : List Byte :=
  ascii "/msg " ++ (pad ++ (word ++ space :: (text ++ tail)))

/-- A text on one line, with what may follow it in the chunk. -/
structure Text (text tail : List Byte) : Prop where
  nonempty : text ≠ []
  line : newline ∉ text
  noNul : (0 : Byte) ∉ text
  ended : tail = [] ∨ tail.head? = some newline

variable {reserved : Finset Fd} {s : Server} {a : Fd → Option (List Byte)} {fd : Fd}

/-! ## The stored names -/

theorem Named.accept (h : Named s a) (hf : fd ∉ s.clients.map Client.fd) :
    Named (serve s (.accept fd)).1 (acknowledge a (.accept fd)) where
  stored c hc := by
    rcases List.mem_append.mp hc with hc | hc
    · have hne : c.fd ≠ fd := fun he => hf (he ▸ List.mem_map_of_mem hc)
      simp only [acknowledge, Function.update_of_ne hne]
      exact h.stored c hc
    · obtain rfl := List.mem_singleton.mp hc
      simp [acknowledge, storedName]
  noNul k name hk := by
    simp only [acknowledge, Function.update_apply] at hk
    split at hk
    · cases hk
    · exact h.noNul k name hk

theorem Named.remove (h : Named s a) (fd : Fd) : Named (removeClient s fd) a where
  stored c hc := by
    rw [removeClient_clients] at hc
    exact h.stored c (mem_of_mem_remove hc)
  noNul := h.noNul

theorem Named.nick (h : Named s a) (ht : Tabled reserved s) {name : List Byte}
    (hn : (0 : Byte) ∉ name) :
    Named (nick s fd name).1 (Function.update a fd (some name)) where
  stored c hc := by
    rw [nick_clients ht] at hc
    obtain ⟨b, hb, rfl⟩ := List.mem_map.mp hc
    by_cases hk : b.fd = fd
    · simp [hk, storedName, CharArray.print_text hn]
    · simp only [if_neg hk, Function.update_of_ne hk]
      exact h.stored b hb
  noNul k old hk := by
    rw [Function.update_apply] at hk
    split at hk
    · obtain rfl := Option.some.inj hk
      exact hn
    · exact h.noNul k old hk

theorem serve_named (h : Named s a) (ht : Tabled reserved s) {e : Event}
    (he : Enabled reserved s e) : Named (serve s e).1 (acknowledge a e) := by
  cases e with
  | accept fd => exact h.accept (ht.fresh he.1)
  | acceptFailed => exact h
  | hangup fd => exact h.remove fd
  | receive fd buf =>
    obtain ⟨self, -, hself, rfl⟩ := ht.find he.1
    rw [serve, receive_eq_perform hself, acknowledge]
    cases hc : commandOf buf with
    | nick name => exact h.nick ht (nick_noNul hc)
    | quit => exact h.remove self.fd
    | list | msg | unknown | chat => exact h

theorem run_named {es : List Event} (h : (machine reserved).Valid es) :
    Named ((machine reserved).run es) (acknowledged es) := by
  refine (Machine.simulation (M := machine reserved)
    (R := fun s a => Tabled reserved s ∧ Named s a) ⟨initial_tabled reserved, ?_⟩ ?_ h).2
  · exact ⟨fun c hc => absurd hc List.not_mem_nil, fun _ _ hk => nomatch hk⟩
  · rintro s a e ⟨ht, hn⟩ he
    exact ⟨serve_tabled ht he, serve_named hn ht he⟩

/-- What the server answers to `/nick`, and so what it acknowledges. -/
theorem nick_reply (h : Tabled reserved s) (hf : fd ∈ s.openFds ∧ fd ∉ reserved)
    {buf name : List Byte} (hc : commandOf buf = .nick name) (hn : name.length < nameLen) :
    (receive s fd buf).2 = [(fd, ascii "[Server] Nickname set to '" ++ name ++ ascii "'\n")] := by
  obtain ⟨self, -, hself, rfl⟩ := h.find hf
  rw [receive_eq_perform hself, hc, perform, nick, snprintf, List.take_of_length_le]
  simp only [List.length_append]
  change name.length < 32 at hn
  change 26 + name.length + 2 ≤ 1023
  omega

/-! ## The addressee -/

theorem commandOf_msg (rest : List Byte) :
    commandOf (ascii "/msg " ++ rest) = .msg (cstr rest) := by
  have hcmd : ascii "/msg " ++ rest = 47 :: 109 :: 115 :: 103 :: 32 :: rest := by
    rw [show ascii "/msg " = [47, 109, 115, 103, 32] from by decide]
    rfl
  have hnick : ¬ ascii "/nick " <+: ascii "/msg " ++ rest := by
    rw [hcmd, show ascii "/nick " = [47, 110, 105, 99, 107, 32] from by decide]
    simp
  have hlist : ¬ ascii "/list" <+: ascii "/msg " ++ rest := by
    rw [hcmd, show ascii "/list" = [47, 108, 105, 115, 116] from by decide]
    simp
  have hdrop : (cstr (ascii "/msg " ++ rest)).drop 5 = cstr rest := by
    rw [cstr_append_of_noNul (by decide)]
    exact List.drop_left' (by decide)
  have hslash : (ascii "/msg " ++ rest).head? = some slash := by
    rw [hcmd]
    rfl
  rw [commandOf, if_neg (not_not.mpr hslash), if_neg hnick, if_neg hlist,
    if_pos (List.prefix_append _ _), hdrop]

theorem cstr_tail {tail : List Byte} (h : tail = [] ∨ tail.head? = some newline) :
    cstr tail = [] ∨ (cstr tail).head? = some newline := by
  rcases h with rfl | h
  · exact Or.inl rfl
  · obtain ⟨rest, rfl⟩ := List.head?_eq_some_iff.mp h
    exact Or.inr rfl

section Words

variable {text tail pad word : List Byte} (h : Text text tail) (hpad : ∀ b ∈ pad, b = space)
  (hne : word ≠ []) (hsp : space ∉ word) (hnul : (0 : Byte) ∉ word)
include h hpad hne hsp hnul

theorem msg_words (self : Client) :
    msg s self (cstr (pad ++ (word ++ space :: (text ++ tail)))) =
      sendPrivate s self word text := by
  have hpad0 : (0 : Byte) ∉ pad := fun hm => absurd (hpad 0 hm) (by decide)
  have hstr : cstr (pad ++ (word ++ space :: (text ++ tail))) =
      pad ++ (word ++ space :: (text ++ cstr tail)) := by
    rw [cstr_append_of_noNul hpad0, cstr_append_of_noNul hnul, ← List.singleton_append,
      cstr_append_of_noNul (by decide), cstr_append_of_noNul h.noNul, List.singleton_append]
  have hmessage : strtok ([] ++ (text ++ cstr tail)) newline = some (text, (cstr tail).tail) :=
    strtok_token (fun b hb => absurd hb List.not_mem_nil) h.nonempty h.line (cstr_tail h.ended)
  rw [List.nil_append] at hmessage
  rw [hstr, msg, strtok_token hpad hne hsp (Or.inr rfl)]
  simp only [List.tail_cons, hmessage]

theorem receive_msg {self : Client} (hself : findSelf s fd = some self) :
    receive s fd (msgChunk pad word text tail) = (s, sendPrivate s self word text) := by
  rw [receive_eq_perform hself, msgChunk, commandOf_msg, perform, msg_words h hpad hne hsp hnul]

end Words

/-- The scan stops at the first client whose stored name is the target. -/
theorem sendPrivate_first {self : Client} {name text : List Byte}
    (hc : ∃ c ∈ s.clients, c.name.text = name) :
    ∃ front dest back, s.clients = front ++ dest :: back ∧ (∀ d ∈ front, d.name.text ≠ name) ∧
      dest.name.text = name ∧
      sendPrivate s self name text = [(dest.fd, snprintf bufSize (privateMessage self text))] := by
  cases hl : findClientByName s name with
  | none =>
    obtain ⟨c, hc, hn⟩ := hc
    exact absurd (List.mem_map.mpr ⟨c, hc, hn⟩) (lookup_eq_none.mp hl)
  | some dest =>
    obtain ⟨hd, front, back, hs, hfront⟩ := List.find?_eq_some_iff_append.mp hl
    refine ⟨front, dest, back, hs, fun d hm => by simpa using hfront d hm, by simpa using hd, ?_⟩
    rw [sendPrivate, hl]

/-- After any run, a `/msg` goes to one client: the first whose stored name is the word that
follows. A client that was told it has the one-word name `name` is that client, unless another
with the same stored name comes before it. -/
theorem private_message_addressee (reserved : Finset Fd) (es : List Event)
    (h : (machine reserved).Valid es) (fd : Fd) {text tail : List Byte} (ht : Text text tail)
    (hfd : fd ∈ ((machine reserved).run es).openFds ∧ fd ∉ reserved) :
    let s := (machine reserved).run es
    ∃ self ∈ s.clients, self.fd = fd ∧
      (∀ pad word, (∀ b ∈ pad, b = space) → word ≠ [] → space ∉ word → (0 : Byte) ∉ word →
        receive s fd (msgChunk pad word text tail) = (s, sendPrivate s self word text)) ∧
      ∀ c name, c ∈ s.openFds ∧ c ∉ reserved → acknowledged es c = some name →
        name ≠ [] → space ∉ name → name.length < nameLen →
        (privateMessage self text).length < bufSize →
        ∃ front dest back, s.clients = front ++ dest :: back ∧
          (∀ d ∈ front, d.name.text ≠ name) ∧ dest.name.text = name ∧
          receive s fd (msgChunk [] name text tail) = (s, [(dest.fd, privateMessage self text)]) ∧
          ((∀ d ∈ s.clients, d.name.text = name → d.fd = c) → dest.fd = c) := by
  intro s
  have htab := run_tabled h
  have hnamed := run_named h
  obtain ⟨self, hmem, hself, rfl⟩ := htab.find hfd
  refine ⟨self, hmem, rfl, fun pad word hpad hne hsp hnul =>
    receive_msg ht hpad hne hsp hnul hself, ?_⟩
  intro c name hc hack hne hsp hlen hfit
  have hstored : ∃ d ∈ s.clients, d.name.text = name := by
    obtain ⟨d, hd, -, rfl⟩ := htab.find hc
    refine ⟨d, hd, ?_⟩
    rw [hnamed.stored d hd, hack, storedName, Option.getD_some, List.take_of_length_le]
    exact Nat.le_sub_one_of_lt hlen
  obtain ⟨front, dest, back, hs, hfront, hdest, hsend⟩ := sendPrivate_first hstored
  refine ⟨front, dest, back, hs, hfront, hdest, ?_, fun honly => ?_⟩
  · rw [receive_msg ht (fun b hb => absurd hb List.not_mem_nil) hne hsp
      (hnamed.noNul c name hack) hself, hsend, snprintf, List.take_of_length_le]
    exact Nat.le_sub_one_of_lt hfit
  · refine honly dest ?_ hdest
    rw [hs]
    exact List.mem_append_right _ List.mem_cons_self

/-- The first client leaves, and the third takes its place in front of the second. -/
theorem private_message_addressee_reordered :
    let es := [.accept 5, .accept 6, .accept 7, .receive 6 (ascii "/nick bob\n"),
      .receive 7 (ascii "/nick bo\n"), .receive 5 (ascii "/quit\n")]
    let s := (machine {0, 1, 2, 3, 4}).run es
    s.clients.map Client.fd = [7, 6] ∧ ∃ self ∈ s.clients, self.fd = 7 ∧
      receive s 7 (msgChunk [] (ascii "bob") (ascii "hi") [newline]) =
        (s, [(6, privateMessage self (ascii "hi"))]) := by
  intro es s
  have ht : Text (ascii "hi") [newline] := ⟨by decide, by decide, by decide, by decide⟩
  have hfit : ∀ c ∈ s.clients, (privateMessage c (ascii "hi")).length < bufSize := by decide
  have honly : ∀ d ∈ s.clients, d.name.text = ascii "bob" → d.fd = 6 := by decide
  obtain ⟨self, hmem, hfd, -, hnamed⟩ :=
    private_message_addressee {0, 1, 2, 3, 4} es (by decide) 7 ht (by decide)
  obtain ⟨front, dest, back, hs, -, -, hrecv, hdest⟩ := hnamed 6 (ascii "bob") (by decide)
    (by decide) (by decide) (by decide) (by decide) (hfit self hmem)
  rw [hdest honly] at hrecv
  exact ⟨by decide, self, hmem, hfd, hrecv⟩

/-- Acknowledged names under which a client is not reached: one that a client before it has
too, one of two words, and one of 32 bytes. -/
theorem duplicate_nickname_takes_message :
    let long := List.replicate 32 (97 : Byte)
    let es := [.accept 5, .accept 6, .accept 7, .accept 8, .receive 5 (ascii "/nick bob\n"),
      .receive 6 (ascii "/nick bob\n"), .receive 7 (ascii "/nick al bo\n"),
      .receive 8 (ascii "/nick " ++ long ++ [newline])]
    let s := (machine {0, 1, 2, 3, 4}).run es
    (machine {0, 1, 2, 3, 4}).Valid es ∧
      acknowledged es 6 = some (ascii "bob") ∧
      (receive s 7 (ascii "/msg bob hi\n")).2 = [(5, ascii "[PM from al bo] hi\n")] ∧
      acknowledged es 7 = some (ascii "al bo") ∧
      (receive s 6 (ascii "/msg al bo hi\n")).2 = [(6, notFound)] ∧
      acknowledged es 8 = some long ∧
      (receive s 6 (ascii "/msg " ++ long ++ ascii " hi\n")).2 = [(6, notFound)] := by
  decide

end PrivateMessages
