import LinuxLabs.CString
import LinuxLabs.EventLoop
import LinuxLabs.KeyedTable

/-! # The command chat server (lab 17)
`serve` is one turn of the event loop of `main`; an event carries the result of its
`accept` or `recv`. Every `send` is recorded as the descriptor and the bytes passed to
it. `clients` is `clients[0..client_count)`. -/
namespace CommandChatServer

open Execution CString KeyedTable

abbrev Fd := ℕ

def maxClients : ℕ := 1024
def maxEvents : ℕ := 256
def bufSize : ℕ := 1024
abbrev nameLen : ℕ := 32

structure Client where
  fd : Fd
  name : CharArray nameLen
  deriving DecidableEq

/-- `openFds` is the kernel's side: the descriptors `accept` cannot return. -/
structure Server where
  clients : List Client
  openFds : Finset Fd
  deriving DecidableEq

abbrev Send := Fd × List Byte

def findClientByName (s : Server) (name : List Byte) : Option Client :=
  lookup (fun c => c.name.text) name s.clients

def broadcast (s : Server) (msg : List Byte) (excludeFd : Fd) : List Send :=
  (s.clients.filter fun c => c.fd ≠ excludeFd).map fun c => (c.fd, msg)

def removeClient (s : Server) (fd : Fd) : Server :=
  match slot Client.fd fd s.clients with
  | none => s
  | some i => ⟨removeAt s.clients i, s.openFds.erase fd⟩

/-- The scans for the client of a chunk do not stop at the first match. -/
def findSelf (s : Server) (fd : Fd) : Option Client := lookupLast Client.fd fd s.clients

/-- The stored name is cut to the array, the acknowledged one to the reply. -/
def nick (s : Server) (fd : Fd) (name : List Byte) : Server × List Send :=
  ({ s with
      clients := updateLast Client.fd fd (fun c => { c with name := .print name }) s.clients },
    [(fd, snprintf bufSize (ascii "[Server] Nickname set to '" ++ name ++ ascii "'\n"))])

/-- The string the `strcat` calls build, kept whole also where it outgrows `response`. -/
def listResponse (s : Server) : List Byte :=
  ascii "[Server] Connected users:\n" ++
    s.clients.flatMap fun c =>
      ascii " - " ++ (if c.name.text ≠ [] then c.name.text else ascii "(unnamed)") ++ [newline]

def privateMessage (self : Client) (message : List Byte) : List Byte :=
  ascii "[PM from " ++ (if self.name.text ≠ [] then self.name.text else ascii "(anon)") ++
    ascii "] " ++ message ++ [newline]

def usage : List Byte := ascii "[Server] Usage: /msg <user> <message>\n"

/-- The length argument counts the literal's terminator. -/
def notFound : List Byte := ascii "[Server] User not found.\n" ++ [0]

def sendPrivate (s : Server) (self : Client) (target message : List Byte) : List Send :=
  match findClientByName s target with
  | none => [(self.fd, notFound)]
  | some dest => [(dest.fd, snprintf bufSize (privateMessage self message))]

def msg (s : Server) (self : Client) (args : List Byte) : List Send :=
  match strtok args space with
  | none => [(self.fd, usage)]
  | some (target, rest) =>
    match strtok rest newline with
    | none => [(self.fd, usage)]
    | some (message, _) => sendPrivate s self target message

def handleCommand (s : Server) (fd : Fd) (cmd : List Byte) : Server × List Send :=
  match findSelf s fd with
  | none => (s, [])
  | some self =>
    if strncmp cmd (ascii "/nick ") 6 then nick s fd (cutNewline (cmd.drop 6))
    else if strncmp cmd (ascii "/list") 5 then (s, [(fd, listResponse s)])
    else if strncmp cmd (ascii "/msg ") 5 then (s, msg s self (cmd.drop 5))
    else if strncmp cmd (ascii "/quit") 5 then (removeClient s fd, [(fd, ascii "[Server] Bye!\n")])
    else (s, [(fd, ascii "[Server] Unknown command.\n")])

def senderName (sender : Option Client) : List Byte :=
  match sender with
  | none => ascii "anon"
  | some c => if c.name.text ≠ [] then c.name.text else ascii "anon"

def chatMessage (sender : Option Client) (buf : List Byte) : List Byte :=
  snprintf bufSize (ascii "[" ++ senderName sender ++ ascii "] " ++ cstr buf)

def slash : Byte := 47

/-- The branch of `main` for a `recv` that returned the bytes `buf`. -/
def receive (s : Server) (fd : Fd) (buf : List Byte) : Server × List Send :=
  if buf.head? = some slash then handleCommand s fd (cstr buf)
  else (s, broadcast s (chatMessage (findSelf s fd) buf) fd)

inductive Event where
  | accept (fd : Fd)
  | acceptFailed
  | hangup (fd : Fd)
  | receive (fd : Fd) (buf : List Byte)
  deriving DecidableEq

/-- The text printed into `msg[128]`. -/
def newConnection (fd : Fd) : List Byte :=
  snprintf 128 (ascii "[Server] New connection (fd=" ++ decimal fd ++ ascii ")\n")

def serve (s : Server) : Event → Server × List Send
  | .accept fd =>
    let s : Server := ⟨s.clients ++ [⟨fd, .empty⟩], insert fd s.openFds⟩
    (s, broadcast s (newConnection fd) fd)
  | .acceptFailed => (s, [])
  | .hangup fd => (removeClient s fd, [])
  | .receive fd buf => receive s fd buf

/-- `reserved` are the descriptors open before the loop; the store at
`clients[client_count]` is inside the array only below `maxClients`. -/
def Enabled (reserved : Finset Fd) (s : Server) : Event → Prop
  | .accept fd => fd ∉ s.openFds ∧ s.clients.length < maxClients
  | .acceptFailed => True
  | .hangup fd => fd ∈ s.openFds ∧ fd ∉ reserved
  | .receive fd buf =>
    (fd ∈ s.openFds ∧ fd ∉ reserved) ∧ 1 ≤ buf.length ∧ buf.length ≤ bufSize - 1

instance (reserved : Finset Fd) (s : Server) (e : Event) : Decidable (Enabled reserved s e) := by
  cases e <;> simp only [Enabled] <;> infer_instance

def machine (reserved : Finset Fd) : Machine Server Event where
  initial := ⟨[], reserved⟩
  Enabled := Enabled reserved
  next s e := (serve s e).1

instance (reserved : Finset Fd) (s : Server) (e : Event) :
    Decidable ((machine reserved).Enabled s e) :=
  inferInstanceAs (Decidable (Enabled reserved s e))

/-! ## What a chunk asks for -/

inductive Command where
  | nick (name : List Byte)
  | list
  | msg (args : List Byte)
  | quit
  | unknown
  | chat
  deriving DecidableEq

def commandOf (buf : List Byte) : Command :=
  if buf.head? ≠ some slash then .chat
  else if ascii "/nick " <+: buf then
    .nick ((buf.drop 6).takeWhile fun b => b ≠ 0 ∧ b ≠ newline)
  else if ascii "/list" <+: buf then .list
  else if ascii "/msg " <+: buf then .msg ((cstr buf).drop 5)
  else if ascii "/quit" <+: buf then .quit
  else .unknown

/-- What the server does for a connected client, by the command in its chunk. -/
def perform (s : Server) (self : Client) (buf : List Byte) : Command → Server × List Send
  | .nick name => nick s self.fd name
  | .list => (s, [(self.fd, listResponse s)])
  | .msg args => (s, msg s self args)
  | .quit => (removeClient s self.fd, [(self.fd, ascii "[Server] Bye!\n")])
  | .unknown => (s, [(self.fd, ascii "[Server] Unknown command.\n")])
  | .chat => (s, broadcast s (chatMessage (some self) buf) self.fd)

theorem nick_noNul {buf name : List Byte} (h : commandOf buf = .nick name) :
    (0 : Byte) ∉ name := by
  intro hm
  unfold commandOf at h
  split_ifs at h
  obtain rfl := Command.nick.inj h
  have hz := List.mem_takeWhile_imp hm
  simp at hz

theorem receive_eq_perform {s : Server} {fd : Fd} {self : Client}
    (h : findSelf s fd = some self) (buf : List Byte) :
    receive s fd buf = perform s self buf (commandOf buf) := by
  obtain rfl : self.fd = fd := key_of_lookup h
  by_cases hs : buf.head? = some slash
  · have hnick := strncmp_cstr_iff (t := ascii "/nick ") (n := 6) (by decide) (by decide) buf
    have hlist := strncmp_cstr_iff (t := ascii "/list") (n := 5) (by decide) (by decide) buf
    have hmsg := strncmp_cstr_iff (t := ascii "/msg ") (n := 5) (by decide) (by decide) buf
    have hquit := strncmp_cstr_iff (t := ascii "/quit") (n := 5) (by decide) (by decide) buf
    rw [receive, if_pos hs, handleCommand, h, commandOf, if_neg (not_not.mpr hs)]
    simp only [hnick, hlist, hmsg, hquit]
    split_ifs with h1
    · have ha := cutNewline_drop_cstr (by decide) h1
      rw [show (ascii "/nick ").length = 6 from by decide] at ha
      rw [ha, perform]
    all_goals rfl
  · rw [receive, if_neg hs, h, commandOf, if_pos hs, perform]

/-! ## The table -/

variable {reserved : Finset Fd} {s : Server} {fd : Fd}

/-- One record for each connection that is open. -/
def Tabled (reserved : Finset Fd) (s : Server) : Prop :=
  Lists reserved (s.clients.map Client.fd) s.openFds

theorem Tabled.find (h : Tabled reserved s) (hf : fd ∈ s.openFds ∧ fd ∉ reserved) :
    ∃ self ∈ s.clients, findSelf s fd = some self ∧ self.fd = fd := by
  cases hl : findSelf s fd with
  | none =>
    rw [findSelf, lookupLast_eq h.nodup] at hl
    exact absurd ((h.mem fd).mpr hf) (lookup_eq_none.mp hl)
  | some self =>
    have hl' := hl
    rw [findSelf, lookupLast_eq h.nodup] at hl'
    exact ⟨self, mem_of_lookup hl', rfl, key_of_lookup hl'⟩

theorem removeClient_clients (s : Server) (fd : Fd) :
    (removeClient s fd).clients = remove Client.fd fd s.clients := by
  unfold removeClient remove
  cases slot Client.fd fd s.clients <;> rfl

theorem removeClient_openFds (h : fd ∈ s.clients.map Client.fd) :
    (removeClient s fd).openFds = s.openFds.erase fd := by
  unfold removeClient
  cases hs : slot Client.fd fd s.clients with
  | none => exact absurd h (slot_eq_none.mp hs)
  | some i => rfl

theorem Tabled.remove (h : Tabled reserved s) (hf : fd ∈ s.openFds ∧ fd ∉ reserved) :
    Tabled reserved (removeClient s fd) := by
  have hd : Distinct Client.fd s.clients := h.nodup
  rw [Tabled, removeClient_openFds ((h.mem fd).mpr hf), removeClient_clients]
  exact h.erase hf.2 (hd.remove fd) (mem_keys_remove hd)

theorem nick_clients (h : Tabled reserved s) (fd : Fd) (name : List Byte) :
    (nick s fd name).1.clients = s.clients.map fun c =>
      if c.fd = fd then { c with name := .print name } else c := by
  have hd : Distinct Client.fd s.clients := h.nodup
  rw [nick, updateLast_eq hd, update_eq_map hd]

theorem Tabled.nick (h : Tabled reserved s) (fd : Fd) (name : List Byte) :
    Tabled reserved (nick s fd name).1 := by
  have hkeys : (CommandChatServer.nick s fd name).1.clients.map Client.fd =
      s.clients.map Client.fd := by
    rw [nick_clients h, List.map_map]
    refine List.map_congr_left fun c _ => ?_
    simp only [Function.comp_apply]
    split <;> rfl
  rw [Tabled, hkeys]
  exact h

theorem Tabled.perform (h : Tabled reserved s) {self : Client}
    (hf : self.fd ∈ s.openFds ∧ self.fd ∉ reserved) (buf : List Byte) (cmd : Command) :
    Tabled reserved (perform s self buf cmd).1 := by
  cases cmd with
  | nick name => exact h.nick self.fd name
  | quit => exact h.remove hf
  | list | msg | unknown | chat => exact h

theorem serve_tabled (h : Tabled reserved s) {e : Event} (he : Enabled reserved s e) :
    Tabled reserved (serve s e).1 := by
  cases e with
  | accept fd =>
    rw [Tabled, serve, List.map_append]
    exact h.insert he.1
  | acceptFailed => exact h
  | hangup fd => exact h.remove he
  | receive fd buf =>
    obtain ⟨self, -, hself, rfl⟩ := h.find he.1
    rw [serve, receive_eq_perform hself]
    exact h.perform he.1 buf _

theorem initial_tabled (reserved : Finset Fd) : Tabled reserved (machine reserved).initial :=
  ⟨List.nodup_nil, fun fd => by simp [machine], Finset.Subset.refl _⟩

theorem run_tabled {es : List Event} (h : (machine reserved).Valid es) :
    Tabled reserved ((machine reserved).run es) :=
  Machine.invariant (initial_tabled reserved) (fun _ _ hs he => serve_tabled hs he) h

/-! ## Its loop -/

open EventLoop

/-- A `/quit` closes the connection it came on. -/
def action : Event → Action Fd
  | .accept fd => .accept [fd]
  | .acceptFailed => .refuse
  | .hangup fd => .hangup fd [fd]
  | .receive fd buf => .receive fd buf.length (commandOf buf = .quit)

theorem perform_openFds (h : Tabled reserved s) {self : Client}
    (hf : self.fd ∈ s.openFds ∧ self.fd ∉ reserved) (buf : List Byte) (cmd : Command) :
    (perform s self buf cmd).1.openFds =
      if decide (cmd = .quit) = true then s.openFds.erase self.fd else s.openFds := by
  cases cmd with
  | quit => exact removeClient_openFds ((h.mem _).mpr hf)
  | nick | list | msg | unknown | chat => simp [perform, nick]

def service (reserved : Finset Fd) : Service Fd Server Event where
  machine := machine reserved
  cap := bufSize - 1
  maxEvents := maxEvents
  opened s := Unreserved s.openFds reserved
  action := action
  Inv := Tabled reserved
  start := initial_tabled reserved
  keep _ _ h he := serve_tabled h he
  opens s e h he := by
    cases e with
    | accept fd => exact opens_accept fun hm => he.1 (h.reserve hm)
    | acceptFailed => exact fun _ => Iff.rfl
    | hangup fd =>
      simp only [machine, serve, removeClient_openFds ((h.mem fd).mpr he)]
      exact opens_hangup
    | receive fd buf =>
      obtain ⟨self, -, hself, rfl⟩ := h.find he.1
      simp only [machine, serve, receive_eq_perform hself, perform_openFds h he.1]
      exact opens_receive buf.length _

end CommandChatServer
