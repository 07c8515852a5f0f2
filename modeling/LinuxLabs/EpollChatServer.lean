import LinuxLabs.CString
import LinuxLabs.EventLoop
import LinuxLabs.KeyedTable

/-! # The chat server on `epoll` (lab 14)
`clients` is `clients[0..client_count)`; `openFds` is the kernel's side. Every `send` is
recorded as the descriptor and the bytes passed to it. -/
namespace EpollChatServer

open Execution CString KeyedTable

abbrev Fd := ℕ

def maxClients : ℕ := 1024
def maxEvents : ℕ := 256
def bufferSize : ℕ := 1024

structure Server where
  clients : List Fd
  openFds : Finset Fd
  deriving DecidableEq

abbrev Send := Fd × List Byte

def broadcast (senderFd : Fd) (clients : List Fd) (msg : List Byte) : List Send :=
  (clients.filter (· ≠ senderFd)).map fun fd => (fd, msg)

inductive Event where
  | accept (fd : Fd)
  | acceptFailed
  | hangup (fd : Fd)
  | receive (fd : Fd) (buf : List Byte)
  deriving DecidableEq

def joined (fd : Fd) : List Byte :=
  snprintf bufferSize (ascii "[Server] New client joined (" ++ decimal fd ++ ascii ")\n")

/-- The bytes that were received go out as they are, without regard to terminators. -/
def serve (s : Server) : Event → Server × List Send
  | .accept fd =>
    let clients := s.clients ++ [fd]
    (⟨clients, insert fd s.openFds⟩, broadcast fd clients (joined fd))
  | .acceptFailed => (s, [])
  | .hangup fd => (⟨remove id fd s.clients, s.openFds.erase fd⟩, [])
  | .receive fd buf => (s, broadcast fd s.clients buf)

/-- `reserved` are the descriptors open before the loop; the store at
`clients[client_count]` is inside the array only below `maxClients`. -/
def Enabled (reserved : Finset Fd) (s : Server) : Event → Prop
  | .accept fd => fd ∉ s.openFds ∧ s.clients.length < maxClients
  | .acceptFailed => True
  | .hangup fd => fd ∈ s.openFds ∧ fd ∉ reserved
  | .receive fd buf =>
    (fd ∈ s.openFds ∧ fd ∉ reserved) ∧ 1 ≤ buf.length ∧ buf.length ≤ bufferSize - 1

def machine (reserved : Finset Fd) : Machine Server Event where
  initial := ⟨[], reserved⟩
  Enabled := Enabled reserved
  next s e := (serve s e).1

variable {reserved : Finset Fd} {s : Server}

theorem initial_lists (reserved : Finset Fd) : Lists reserved [] reserved :=
  ⟨List.nodup_nil, fun fd => by simp, Finset.Subset.refl _⟩

theorem serve_lists (h : Lists reserved s.clients s.openFds) {e : Event}
    (he : Enabled reserved s e) : Lists reserved (serve s e).1.clients (serve s e).1.openFds := by
  have hd : Distinct id s.clients := by
    rw [Distinct, List.map_id]
    exact h.nodup
  cases e with
  | accept fd => exact h.insert he.1
  | acceptFailed | receive => exact h
  | hangup fd =>
    refine h.erase he.2 ?_ fun j => ?_
    · have hr := hd.remove fd
      rwa [Distinct, List.map_id] at hr
    · have hm := mem_keys_remove (k := fd) hd j
      rwa [List.map_id, List.map_id] at hm

/-! ## Its loop -/

open EventLoop

def action : Event → Action Fd
  | .accept fd => .accept [fd]
  | .acceptFailed => .refuse
  | .hangup fd => .hangup fd [fd]
  | .receive fd buf => .receive fd buf.length false

def service (reserved : Finset Fd) : Service Fd Server Event where
  machine := machine reserved
  cap := bufferSize - 1
  maxEvents := maxEvents
  opened s := Unreserved s.openFds reserved
  action := action
  Inv s := Lists reserved s.clients s.openFds
  start := initial_lists reserved
  keep _ _ h he := serve_lists h he
  opens s e h he := by
    cases e with
    | accept fd => exact opens_accept fun hm => he.1 (h.reserve hm)
    | acceptFailed => exact fun _ => Iff.rfl
    | hangup fd => exact opens_hangup
    | receive fd buf => exact opens_receive buf.length false

end EpollChatServer
