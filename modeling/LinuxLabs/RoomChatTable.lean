import LinuxLabs.RoomChatServer
import Mathlib.Logic.Function.Basic

/-! # The client table of the room chat server is a finite map
The abstract directory gives each connected descriptor its name and room, and each event
changes only the acting descriptor's entry. The array refines it whatever order the
swap-with-last removals leave behind. -/
namespace RoomChatTable

open Execution CString KeyedTable RoomChatServer

@[ext] structure Profile where
  name : CharArray nameLen
  room : CharArray roomLen
  deriving DecidableEq

def profile (c : Client) : Profile := ⟨c.name, c.room⟩

abbrev Directory := Fd → Option Profile

def directory (s : Server) : Directory := fun fd => (findClientByFd s fd).map profile

def Directory.modify (d : Directory) (fd : Fd) (f : Profile → Profile) : Directory :=
  Function.update d fd ((d fd).map f)

def Directory.apply (d : Directory) : Event → Directory
  | .accept fd => Function.update d fd (some ⟨.empty, .empty⟩)
  | .acceptFailed => d
  | .hangup fd => Function.update d fd none
  | .receive fd buf =>
    match commandOf buf with
    | .nick name => d.modify fd fun p => { p with name := .print name }
    | .join room => d.modify fd fun p => { p with room := .print room }
    | .leave => d.modify fd fun p => { p with room := .empty }
    | .quit => Function.update d fd none
    | .list | .unknown | .chat => d

def Directory.after (es : List Event) : Directory := es.foldl Directory.apply fun _ => none

/-- The descriptor an event is about. -/
def actor : Event → Option Fd
  | .accept fd | .hangup fd | .receive fd _ => some fd
  | .acceptFailed => none

/-- Accepted descriptors that have neither quit nor disconnected, read off the events. -/
def connect (fds : Finset Fd) : Event → Finset Fd
  | .accept fd => insert fd fds
  | .acceptFailed => fds
  | .hangup fd => fds.erase fd
  | .receive fd buf => if commandOf buf = .quit then fds.erase fd else fds

def connected (es : List Event) : Finset Fd := es.foldl connect ∅

theorem apply_frame (d : Directory) (e : Event) {fd : Fd} (h : actor e ≠ some fd) :
    d.apply e fd = d fd := by
  have hne : ∀ a, actor e = some a → fd ≠ a := fun a ha hf => h (hf ▸ ha)
  cases e with
  | accept a => exact Function.update_of_ne (hne a rfl) _ _
  | acceptFailed => rfl
  | hangup a => exact Function.update_of_ne (hne a rfl) _ _
  | receive a buf =>
    simp only [Directory.apply]
    cases commandOf buf with
    | nick | join | leave | quit => exact Function.update_of_ne (hne a rfl) _ _
    | list | unknown | chat => rfl

structure Consistent (reserved : Finset Fd) (s : Server) : Prop where
  distinct : Distinct Client.fd s.clients
  opened : ∀ fd, fd ∈ s.clients.map Client.fd ↔ fd ∈ s.openFds ∧ fd ∉ reserved
  reserve : reserved ⊆ s.openFds

variable {reserved : Finset Fd} {s : Server}

theorem consistent_iff (s : Server) :
    Consistent reserved s ↔ Lists reserved (s.clients.map Client.fd) s.openFds :=
  ⟨fun h => ⟨h.distinct, h.opened, h.reserve⟩, fun h => ⟨h.nodup, h.mem, h.reserve⟩⟩

theorem Consistent.lists (h : Consistent reserved s) :
    Lists reserved (s.clients.map Client.fd) s.openFds := (consistent_iff s).mp h

theorem directory_eq_some (h : Distinct Client.fd s.clients) {fd : Fd} {p : Profile} :
    directory s fd = some p ↔ ∃ c ∈ s.clients, c.fd = fd ∧ profile c = p := by
  simp only [directory, findClientByFd, Option.map_eq_some_iff, lookup_eq_some h, and_assoc]

theorem Consistent.find (h : Consistent reserved s) {fd : Fd}
    (hf : fd ∈ s.openFds ∧ fd ∉ reserved) :
    ∃ self, findClientByFd s fd = some self ∧ self.fd = fd := by
  cases hl : findClientByFd s fd with
  | none => exact absurd ((h.opened fd).mpr hf) (lookup_eq_none.mp hl)
  | some self => exact ⟨self, rfl, key_of_lookup hl⟩

/-! ## The three operations on the table -/

section Store

variable {fd : Fd} {f : Client → Client} (hf : ∀ c, (f c).fd = c.fd)
include hf

theorem storeClient_keys : (storeClient s fd f).clients.map Client.fd = s.clients.map Client.fd :=
  map_key_update hf

theorem directory_storeClient {g : Profile → Profile} (hg : ∀ c, profile (f c) = g (profile c)) :
    directory (storeClient s fd f) = (directory s).modify fd g := by
  funext k
  simp only [directory, findClientByFd, storeClient, lookup_update hf, Directory.modify,
    Function.update_apply]
  split
  · simp [Option.map_map, Function.comp_def, hg]
  · rfl

theorem Consistent.store (h : Consistent reserved s) :
    Consistent reserved (storeClient s fd f) where
  distinct := h.distinct.update hf
  opened k := by rw [storeClient_keys hf]; exact h.opened k
  reserve := h.reserve

end Store

theorem removeClient_clients (fd : Fd) :
    (removeClient s fd).clients = remove Client.fd fd s.clients := by
  unfold removeClient remove
  cases slot Client.fd fd s.clients <;> rfl

theorem removeClient_openFds {fd : Fd} (h : fd ∈ s.clients.map Client.fd) :
    (removeClient s fd).openFds = s.openFds.erase fd := by
  unfold removeClient
  cases hs : slot Client.fd fd s.clients with
  | none => exact absurd h (slot_eq_none.mp hs)
  | some i => rfl

theorem directory_removeClient (h : Distinct Client.fd s.clients) (fd : Fd) :
    directory (removeClient s fd) = Function.update (directory s) fd none := by
  funext k
  simp only [directory, findClientByFd, removeClient_clients, lookup_remove h,
    Function.update_apply]
  split <;> rfl

theorem removeClient_keys (h : Distinct Client.fd s.clients) (fd k : Fd) :
    k ∈ (removeClient s fd).clients.map Client.fd ↔ k ≠ fd ∧ k ∈ s.clients.map Client.fd := by
  rw [removeClient_clients]
  exact mem_keys_remove h k

theorem Consistent.remove (h : Consistent reserved s) {fd : Fd}
    (hf : fd ∈ s.openFds ∧ fd ∉ reserved) : Consistent reserved (removeClient s fd) := by
  refine (consistent_iff _).mpr ?_
  rw [removeClient_openFds ((h.opened fd).mpr hf)]
  refine h.lists.erase hf.2 ?_ (removeClient_keys h.distinct fd)
  rw [removeClient_clients]
  exact h.distinct.remove fd

theorem Consistent.fresh (h : Consistent reserved s) {fd : Fd} (hf : fd ∉ s.openFds) :
    fd ∉ s.clients.map Client.fd := h.lists.fresh hf

/-! ## One event -/

/-- The server after a command: its replies and notices never touch the table. -/
def effect (s : Server) (fd : Fd) : Command → Server
  | .nick name => storeClient s fd fun c => { c with name := .print name }
  | .join room => storeClient s fd fun c => { c with room := .print room }
  | .leave => storeClient s fd fun c => { c with room := .empty }
  | .quit => removeClient s fd
  | .list | .unknown | .chat => s

theorem perform_server {self : Client} (h : findClientByFd s self.fd = some self)
    (buf : List Byte) (cmd : Command) : (perform s self buf cmd).1 = effect s self.fd cmd := by
  cases cmd with
  | leave =>
    simp only [perform, leave, effect]
    split
    · rfl
    · next hr =>
      have hstay : update Client.fd self.fd (fun c => { c with room := .empty }) s.clients =
          s.clients := by
        refine update_eq_self fun c hc => ?_
        obtain rfl : self = c := Option.some.inj (h.symm.trans hc)
        have he : self.room = .empty := CharArray.ext (not_not.mp hr)
        rw [← he]
      rw [storeClient, hstay]
  | chat =>
    simp only [perform, effect]
    split <;> rfl
  | nick | join | list | quit | unknown => rfl

theorem receive_server (h : Consistent reserved s) {fd : Fd} (hf : fd ∈ s.openFds ∧ fd ∉ reserved)
    (buf : List Byte) : (receive s fd buf).1 = effect s fd (commandOf buf) := by
  obtain ⟨self, hfind, rfl⟩ := h.find hf
  rw [receive_eq_perform hfind, perform_server hfind]

theorem Consistent.effect (h : Consistent reserved s) {fd : Fd}
    (hf : fd ∈ s.openFds ∧ fd ∉ reserved) (cmd : Command) :
    Consistent reserved (effect s fd cmd) := by
  cases cmd with
  | nick | join | leave => exact h.store fun _ => rfl
  | quit => exact h.remove hf
  | list | unknown | chat => exact h

theorem effect_directory (h : Consistent reserved s) (fd : Fd) (buf : List Byte) :
    directory (effect s fd (commandOf buf)) = (directory s).apply (.receive fd buf) := by
  simp only [Directory.apply]
  cases commandOf buf with
  | nick | join | leave => exact directory_storeClient (by intro c; rfl) (by intro c; rfl)
  | quit => exact directory_removeClient h.distinct fd
  | list | unknown | chat => rfl

theorem effect_keys (h : Consistent reserved s) (fd : Fd) (cmd : Command) (k : Fd) :
    k ∈ (effect s fd cmd).clients.map Client.fd ↔
      (cmd = .quit → k ≠ fd) ∧ k ∈ s.clients.map Client.fd := by
  cases cmd with
  | nick | join | leave =>
    rw [effect, storeClient_keys (by intro c; rfl)]
    simp
  | quit =>
    rw [effect, removeClient_keys h.distinct]
    simp
  | list | unknown | chat => simp [effect]

theorem accept_directory (h : Consistent reserved s) {fd : Fd} (hf : fd ∉ s.openFds) :
    directory (serve s (.accept fd)).1 = (directory s).apply (.accept fd) := by
  funext k
  simp only [serve, directory, findClientByFd, Directory.apply, Function.update_apply]
  rw [lookup_append (h.fresh hf)]
  split <;> rfl

theorem serve_directory (h : Consistent reserved s) {e : Event} (he : Enabled reserved s e) :
    directory (serve s e).1 = (directory s).apply e := by
  cases e with
  | accept fd => exact accept_directory h he.1
  | acceptFailed => rfl
  | hangup fd => exact directory_removeClient h.distinct fd
  | receive fd buf => rw [serve, receive_server h he.1, effect_directory h]

theorem serve_consistent (h : Consistent reserved s) {e : Event} (he : Enabled reserved s e) :
    Consistent reserved (serve s e).1 := by
  cases e with
  | accept fd =>
    refine (consistent_iff _).mpr ?_
    rw [serve, List.map_append]
    exact h.lists.insert he.1
  | acceptFailed => exact h
  | hangup fd => exact h.remove he
  | receive fd buf =>
    rw [serve, receive_server h he.1]
    exact h.effect he.1 _

theorem serve_connect (h : Consistent reserved s) {e : Event} (he : Enabled reserved s e)
    {fds : Finset Fd} (hfds : ∀ fd, fd ∈ s.clients.map Client.fd ↔ fd ∈ fds) (k : Fd) :
    k ∈ (serve s e).1.clients.map Client.fd ↔ k ∈ connect fds e := by
  cases e with
  | accept fd =>
    simp only [serve, List.map_append, List.map_singleton, List.mem_append, List.mem_singleton,
      connect, Finset.mem_insert, hfds k]
    exact or_comm
  | acceptFailed => exact hfds k
  | hangup fd =>
    simp only [serve, connect, Finset.mem_erase]
    rw [removeClient_keys h.distinct, hfds k]
  | receive fd buf =>
    rw [serve, receive_server h he.1, effect_keys h, hfds k, connect]
    split <;> simp_all

/-! ## Every run -/

theorem initial_consistent (reserved : Finset Fd) :
    Consistent reserved (machine reserved).initial :=
  ⟨List.nodup_nil, fun fd => by simp [machine], Finset.Subset.refl _⟩

theorem run_consistent {es : List Event} (h : (machine reserved).Valid es) :
    Consistent reserved ((machine reserved).run es) :=
  Machine.invariant (initial_consistent reserved) (fun _ _ hs he => serve_consistent hs he) h

theorem run_directory {es : List Event} (h : (machine reserved).Valid es) :
    directory ((machine reserved).run es) = Directory.after es := by
  refine (Machine.simulation (M := machine reserved)
    (R := fun s d => Consistent reserved s ∧ directory s = d)
    ⟨initial_consistent reserved, rfl⟩ ?_ h).2
  rintro s d e ⟨hs, rfl⟩ he
  exact ⟨serve_consistent hs he, serve_directory hs he⟩

theorem run_connected {es : List Event} (h : (machine reserved).Valid es) (fd : Fd) :
    fd ∈ ((machine reserved).run es).clients.map Client.fd ↔ fd ∈ connected es := by
  refine (Machine.simulation (M := machine reserved)
    (R := fun s fds => Consistent reserved s ∧ ∀ fd, fd ∈ s.clients.map Client.fd ↔ fd ∈ fds)
    ⟨initial_consistent reserved, fun k => by simp [machine]⟩ ?_ h).2 fd
  rintro s fds e ⟨hs, hfds⟩ he
  exact ⟨serve_consistent hs he, serve_connect hs he hfds⟩

/-- The array after any run: one record for each connection still up, holding what the
directory says of it, and one further event touches its actor's record only. -/
theorem table_refines_directory (reserved : Finset Fd) (es : List Event)
    (h : (machine reserved).Valid es) :
    let s := (machine reserved).run es
    (s.clients.map Client.fd).Nodup ∧
    (∀ fd, fd ∈ s.clients.map Client.fd ↔ fd ∈ connected es) ∧
    (∀ fd p, Directory.after es fd = some p ↔ ∃ c ∈ s.clients, c.fd = fd ∧ profile c = p) ∧
    (∀ e, (machine reserved).Enabled s e →
      directory ((machine reserved).next s e) = (directory s).apply e ∧
      ∀ fd, actor e ≠ some fd → directory ((machine reserved).next s e) fd = directory s fd) := by
  have hs := run_consistent h
  refine ⟨hs.distinct, run_connected h, fun fd p => ?_, fun e he => ⟨serve_directory hs he, ?_⟩⟩
  · rw [← run_directory h]
    exact directory_eq_some hs.distinct
  · intro fd hfd
    rw [show (machine reserved).next _ e = (serve _ e).1 from rfl, serve_directory hs he]
    exact apply_frame _ e hfd

/-- Three connections; the first quits, so the third moves into its slot, and its number
is handed out again. -/
theorem table_refines_directory_reuse :
    let es := [.accept 5, .accept 6, .accept 7, .receive 7 (ascii "/join a\n"),
      .receive 5 (ascii "/quit\n"), .accept 5, .receive 6 (ascii "/nick b\n")]
    let s := (machine {0, 1, 2, 3, 4}).run es
    s.clients.map Client.fd = [7, 6, 5] ∧
    ((s.clients.map Client.fd).Nodup ∧
    (∀ fd, fd ∈ s.clients.map Client.fd ↔ fd ∈ connected es) ∧
    (∀ fd p, Directory.after es fd = some p ↔ ∃ c ∈ s.clients, c.fd = fd ∧ profile c = p) ∧
    (∀ e, (machine {0, 1, 2, 3, 4}).Enabled s e →
      directory ((machine {0, 1, 2, 3, 4}).next s e) = (directory s).apply e ∧
      ∀ fd, actor e ≠ some fd →
        directory ((machine {0, 1, 2, 3, 4}).next s e) fd = directory s fd)) := by
  exact ⟨by decide, table_refines_directory {0, 1, 2, 3, 4} _ (by decide)⟩

end RoomChatTable
