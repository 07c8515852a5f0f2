import LinuxLabs.Execution
import LinuxLabs.CString
import LinuxLabs.KeyedTable
import Mathlib.Data.Finset.Basic

/-! # The room chat server (lab 18)
`serve` is one turn of the event loop of `main`; an event carries the result of its
`accept` or `recv`. Every call of `send` is recorded as the descriptor and the bytes
passed to it. `clients` is `clients[0..client_count)`. -/
namespace RoomChatServer

open Execution CString KeyedTable

abbrev Fd := ℕ

def maxClients : ℕ := 1024
def maxEvents : ℕ := 256
def bufSize : ℕ := 1024
abbrev nameLen : ℕ := 32
abbrev roomLen : ℕ := 32

structure Client where
  fd : Fd
  name : CharArray nameLen
  room : CharArray roomLen
  deriving DecidableEq

/-- `openFds` is the kernel's side: the descriptors `accept` cannot return. -/
structure Server where
  clients : List Client
  openFds : Finset Fd
  deriving DecidableEq

abbrev Send := Fd × List Byte

def findClientByFd (s : Server) (fd : Fd) : Option Client := lookup Client.fd fd s.clients

/-- A store through the pointer that `find_client_by_fd` returned. -/
def storeClient (s : Server) (fd : Fd) (f : Client → Client) : Server :=
  { s with clients := update Client.fd fd f s.clients }

def broadcastRoom (s : Server) (room msg : List Byte) (excludeFd : Fd) : List Send :=
  (s.clients.filter fun c => c.room.text = room ∧ c.fd ≠ excludeFd).map fun c => (c.fd, msg)

def removeClient (s : Server) (fd : Fd) : Server :=
  match slot Client.fd fd s.clients with
  | none => s
  | some i => ⟨removeAt s.clients i, s.openFds.erase fd⟩

def nick (s : Server) (fd : Fd) (name : List Byte) : Server × List Send :=
  let stored : CharArray nameLen := .print name
  (storeClient s fd fun c => { c with name := stored },
    [(fd, snprintf bufSize (ascii "[Server] Nickname set to '" ++ stored.text ++ ascii "'\n"))])

/-- The notice goes to the rooms equal to the whole argument, not to the stored room. -/
def join (s : Server) (fd : Fd) (self : Client) (room : List Byte) : Server × List Send :=
  let s := storeClient s fd fun c => { c with room := .print room }
  (s, (fd, snprintf bufSize (ascii "[Server] Joined room '" ++ room ++ ascii "'\n")) ::
    broadcastRoom s room
      (snprintf bufSize (ascii "[Server] " ++ self.name.text ++ ascii " joined the room.\n")) fd)

/-- The reply's length argument counts the literal's terminator. -/
def leave (s : Server) (fd : Fd) (self : Client) : Server × List Send :=
  if self.room.text ≠ [] then
    (storeClient s fd fun c => { c with room := .empty },
      broadcastRoom s self.room.text (snprintf bufSize (ascii "[Server] " ++ self.name.text ++
        ascii " left room '" ++ self.room.text ++ ascii "'\n")) fd ++
      [(fd, ascii "[Server] You left the room.\n" ++ [0])])
  else (s, [(fd, ascii "[Server] You are not in any room.\n")])

/-- The string the `strcat` calls build, kept whole also where it outgrows `response`. -/
def listResponse (s : Server) (self : Client) : List Byte :=
  ascii "[Server] Users in your room:\n" ++
    (s.clients.filter fun c => c.room.text = self.room.text).flatMap fun c =>
      ascii " - " ++ (if c.name.text ≠ [] then c.name.text else ascii "(unnamed)") ++ [newline]

def quit (s : Server) (fd : Fd) : Server × List Send :=
  (removeClient s fd, [(fd, ascii "[Server] Bye!\n")])

def handleCommand (s : Server) (fd : Fd) (cmd : List Byte) : Server × List Send :=
  match findClientByFd s fd with
  | none => (s, [])
  | some self =>
    if strncmp cmd (ascii "/nick ") 6 then nick s fd (cutNewline (cmd.drop 6))
    else if strncmp cmd (ascii "/join ") 6 then join s fd self (cutNewline (cmd.drop 6))
    else if strncmp cmd (ascii "/leave") 6 then leave s fd self
    else if strncmp cmd (ascii "/list") 5 then (s, [(fd, listResponse s self)])
    else if strncmp cmd (ascii "/quit") 5 then quit s fd
    else (s, [(fd, ascii "[Server] Unknown command.\n")])

def chatMessage (sender : Client) (buf : List Byte) : List Byte :=
  snprintf bufSize (ascii "[" ++
    (if sender.name.text ≠ [] then sender.name.text else ascii "anon") ++ ascii ":" ++
    sender.room.text ++ ascii "] " ++ cstr buf)

def slash : Byte := 47

/-- The branch of `main` for a `recv` that returned the bytes `buf`. -/
def receive (s : Server) (fd : Fd) (buf : List Byte) : Server × List Send :=
  if buf.head? = some slash then handleCommand s fd (cstr buf)
  else match findClientByFd s fd with
    | none => (s, [(fd, ascii "[Server] Join a room first using /join <room>\n")])
    | some sender =>
      if sender.room.text = [] then
        (s, [(fd, ascii "[Server] Join a room first using /join <room>\n")])
      else (s, broadcastRoom s sender.room.text (chatMessage sender buf) fd)

inductive Event where
  | accept (fd : Fd)
  | acceptFailed
  | hangup (fd : Fd)
  | receive (fd : Fd) (buf : List Byte)
  deriving DecidableEq

def serve (s : Server) : Event → Server × List Send
  | .accept fd =>
    (⟨s.clients ++ [⟨fd, .empty, .empty⟩], insert fd s.openFds⟩,
      [(fd, ascii "[Server] Welcome! Use /nick, /join, /list, /quit.\n")])
  | .acceptFailed => (s, [])
  | .hangup fd => (removeClient s fd, [])
  | .receive fd buf => receive s fd buf

/-- The kernel hands out free descriptors and reports open connections; `reserved` are
the descriptors open before the loop. The store at `clients[client_count]` is inside
the array only below `maxClients`. -/
def Enabled (reserved : Finset Fd) (s : Server) : Event → Prop
  | .accept fd => fd ∉ s.openFds ∧ s.clients.length < maxClients
  | .acceptFailed => True
  | .hangup fd => fd ∈ s.openFds ∧ fd ∉ reserved
  | .receive fd buf =>
    (fd ∈ s.openFds ∧ fd ∉ reserved) ∧ 1 ≤ buf.length ∧ buf.length ≤ bufSize - 1

instance (reserved : Finset Fd) (s : Server) (e : Event) : Decidable (Enabled reserved s e) := by
  cases e <;> simp only [Enabled] <;> infer_instance

def machine (reserved : Finset Fd) : Machine Server Event where
  initial := ⟨[], reserved⟩
  Enabled := Enabled reserved
  next s e := (serve s e).1

instance (reserved : Finset Fd) (s : Server) (e : Event) :
    Decidable ((machine reserved).Enabled s e) :=
  inferInstanceAs (Decidable (Enabled reserved s e))

/-! ## What a chunk asks for -/

inductive Command where
  | nick (name : List Byte)
  | join (room : List Byte)
  | leave
  | list
  | quit
  | unknown
  | chat
  deriving DecidableEq

def argument (buf : List Byte) : List Byte :=
  (buf.drop 6).takeWhile fun b => b ≠ 0 ∧ b ≠ newline

def commandOf (buf : List Byte) : Command :=
  if buf.head? ≠ some slash then .chat
  else if ascii "/nick " <+: buf then .nick (argument buf)
  else if ascii "/join " <+: buf then .join (argument buf)
  else if ascii "/leave" <+: buf then .leave
  else if ascii "/list" <+: buf then .list
  else if ascii "/quit" <+: buf then .quit
  else .unknown

theorem argument_noNul (buf : List Byte) : (0 : Byte) ∉ argument buf := by
  intro h
  have hz := List.mem_takeWhile_imp h
  simp at hz

theorem join_noNul {buf room : List Byte} (h : commandOf buf = .join room) :
    (0 : Byte) ∉ room := by
  have hr : room = argument buf := by
    simp only [commandOf] at h
    split_ifs at h
    exact (Command.join.inj h).symm
  rw [hr]
  exact argument_noNul buf

/-- What the server does for a connected client, by the command in its chunk. -/
def perform (s : Server) (self : Client) (buf : List Byte) : Command → Server × List Send
  | .nick name => nick s self.fd name
  | .join room => join s self.fd self room
  | .leave => leave s self.fd self
  | .list => (s, [(self.fd, listResponse s self)])
  | .quit => quit s self.fd
  | .unknown => (s, [(self.fd, ascii "[Server] Unknown command.\n")])
  | .chat =>
    if self.room.text = [] then
      (s, [(self.fd, ascii "[Server] Join a room first using /join <room>\n")])
    else (s, broadcastRoom s self.room.text (chatMessage self buf) self.fd)

theorem receive_eq_perform {s : Server} {fd : Fd} {self : Client}
    (h : findClientByFd s fd = some self) (buf : List Byte) :
    receive s fd buf = perform s self buf (commandOf buf) := by
  obtain rfl : self.fd = fd := key_of_lookup h
  by_cases hs : buf.head? = some slash
  · have hnick := strncmp_cstr_iff (t := ascii "/nick ") (n := 6) (by decide) (by decide) buf
    have hjoin := strncmp_cstr_iff (t := ascii "/join ") (n := 6) (by decide) (by decide) buf
    have hleave := strncmp_cstr_iff (t := ascii "/leave") (n := 6) (by decide) (by decide) buf
    have hlist := strncmp_cstr_iff (t := ascii "/list") (n := 5) (by decide) (by decide) buf
    have hquit := strncmp_cstr_iff (t := ascii "/quit") (n := 5) (by decide) (by decide) buf
    rw [receive, if_pos hs, handleCommand, h, commandOf, if_neg (not_not.mpr hs)]
    simp only [hnick, hjoin, hleave, hlist, hquit]
    split_ifs with h1 h2
    · have ha := cutNewline_drop_cstr (by decide) h1
      rw [show (ascii "/nick ").length = 6 from by decide] at ha
      rw [ha, perform, argument]
    · have ha := cutNewline_drop_cstr (by decide) h2
      rw [show (ascii "/join ").length = 6 from by decide] at ha
      rw [ha, perform, argument]
    all_goals rfl
  · rw [receive, if_neg hs, h, commandOf, if_pos hs, perform]

end RoomChatServer
