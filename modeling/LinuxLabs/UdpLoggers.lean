import LinuxLabs.CString
import LinuxLabs.Journal
import Mathlib.Data.List.Induction

/-! # The UDP loggers (labs 06 and 08)
Each datagram is printed to the log behind a header with the time and its sender. The line ends
where the payload says so: the client sends one line at a time. -/
namespace UdpLoggers

open CString (Byte ascii decimal newline cstr)
open Journal

def bufSize : ℕ := 1024

/-- What `localtime` makes of the time, with the ranges of its fields; `year` counts from 0. -/
structure Tm where
  year : ℕ
  mon : Fin 12
  mday : Fin 32
  hour : Fin 24
  min : Fin 60
  sec : Fin 61
  deriving DecidableEq

/-- `struct sockaddr_in`, with the bytes of the address in the order they are printed. -/
structure SockAddr where
  addr : UInt8 × UInt8 × UInt8 × UInt8
  port : UInt16
  deriving DecidableEq

structure Stamp where
  now : Tm
  sender : SockAddr
  deriving DecidableEq

/-- A result of `recvfrom`, with the time it is handled at. -/
inductive Recv where
  | failed
  | datagram (stamp : Stamp) (payload : List Byte)
  deriving DecidableEq

/-- `%m` and the like. -/
def twoDigits (n : ℕ) : List Byte := decimal (n / 10) ++ decimal (n % 10)

/-- `strftime` with `"%Y-%m-%d %H:%M:%S"`. -/
def strftime (t : Tm) : List Byte :=
  decimal t.year ++ ascii "-" ++ twoDigits (t.mon + 1) ++ ascii "-" ++ twoDigits t.mday ++
    ascii " " ++ twoDigits t.hour ++ ascii ":" ++ twoDigits t.min ++ ascii ":" ++ twoDigits t.sec

def inetNtoa (a : UInt8 × UInt8 × UInt8 × UInt8) : List Byte :=
  decimal a.1.toNat ++ ascii "." ++ decimal a.2.1.toNat ++ ascii "." ++ decimal a.2.2.1.toNat ++
    ascii "." ++ decimal a.2.2.2.toNat

/-- The format up to the payload. -/
def header (between behind : List Byte) (s : Stamp) : List Byte :=
  ascii "[" ++ strftime s.now ++ between ++ inetNtoa s.sender.addr ++ ascii ":" ++
    decimal s.sender.port.toNat ++ behind

/-- The arrow in UTF-8. -/
def arrow : List Byte := [0xE2, 0x86, 0x92]

inductive Logger where
  | server
  | daemonLogger
  deriving DecidableEq

namespace Logger

/-- The format of the log file. -/
def header : Logger → Stamp → List Byte
  | .server => UdpLoggers.header (ascii "] [") (ascii "] ")
  | .daemonLogger => UdpLoggers.header (ascii "] ") (ascii " " ++ arrow ++ ascii " ")

/-- The test of the result of `recvfrom`. -/
def logs : Logger → ℕ → Bool
  | .server, _ => true
  | .daemonLogger, n => n > 0

end Logger

/-- The body of the loop. -/
def receive (p : Logger) (log : List Byte) : Recv → List Byte
  | .failed => log
  | .datagram s payload =>
    let buffer := payload.take (bufSize - 1)
    if p.logs buffer.length then log ++ (p.header s ++ cstr buffer) else log

/-- The file after these datagrams. -/
def run (p : Logger) (rs : List Recv) : List Byte := rs.foldl (receive p) []

/-- Which datagrams are to be read back from the file: when they came, from whom, and what they
say. -/
def records (p : Logger) (rs : List Recv) : List (Stamp × List Byte) :=
  rs.filterMap fun
    | .failed => none
    | .datagram s payload => if p.logs payload.length then some (s, payload) else none

/-- The payload fits the buffer and holds no NUL. -/
def Carried : Recv → Prop
  | .failed => True
  | .datagram _ payload => payload.length ≤ bufSize - 1 ∧ (0 : Byte) ∉ payload

instance : DecidablePred Carried := fun r => by
  cases r <;> simp only [Carried] <;> infer_instance

variable {p : Logger} {rs : List Recv} {r : Recv}

/-! ## The headers tell where they end -/

theorem twoDigits_append_inj {m n : ℕ} {r r' : List Byte} (hm : m < 100) (hn : n < 100)
    (h : twoDigits m ++ r = twoDigits n ++ r') : m = n ∧ r = r' := by
  have hlen {k : ℕ} (hk : k < 10) : (decimal k).length = 1 := by
    rw [decimal, Nat.toDigits_of_lt_base hk]
    rfl
  obtain ⟨hdigits, hr⟩ := List.append_inj h (by
    simp only [twoDigits, List.length_append]
    rw [hlen (by omega), hlen (by omega), hlen (by omega), hlen (by omega)])
  obtain ⟨htens, hones⟩ := List.append_inj hdigits (by rw [hlen (by omega), hlen (by omega)])
  have htens := CString.decimal_injective htens
  have hones := CString.decimal_injective hones
  exact ⟨by omega, hr⟩

theorem strftime_append_inj {t t' : Tm} {r r' : List Byte}
    (h : strftime t ++ r = strftime t' ++ r') : t = t' ∧ r = r' := by
  simp only [strftime, List.append_assoc] at h
  obtain ⟨hyear, h⟩ := CString.decimal_append_inj (by decide) h
  obtain ⟨hmon, h⟩ := twoDigits_append_inj (by omega) (by omega) h
  rw [List.append_right_inj] at h
  obtain ⟨hmday, h⟩ := twoDigits_append_inj (by omega) (by omega) h
  rw [List.append_right_inj] at h
  obtain ⟨hhour, h⟩ := twoDigits_append_inj (by omega) (by omega) h
  rw [List.append_right_inj] at h
  obtain ⟨hmin, h⟩ := twoDigits_append_inj (by omega) (by omega) h
  rw [List.append_right_inj] at h
  obtain ⟨hsec, h⟩ := twoDigits_append_inj (by omega) (by omega) h
  refine ⟨?_, h⟩
  cases t
  cases t'
  simp_all [Fin.ext_iff]

theorem inetNtoa_append_inj {a a' : UInt8 × UInt8 × UInt8 × UInt8} {text r r' : List Byte}
    (ht : text.head?.map CString.isDigit = some false)
    (h : inetNtoa a ++ (text ++ r) = inetNtoa a' ++ (text ++ r')) : a = a' ∧ r = r' := by
  simp only [inetNtoa, List.append_assoc] at h
  obtain ⟨h₁, h⟩ := CString.decimal_append_inj (by decide) h
  obtain ⟨h₂, h⟩ := CString.decimal_append_inj (by decide) h
  obtain ⟨h₃, h⟩ := CString.decimal_append_inj (by decide) h
  obtain ⟨h₄, h⟩ := CString.decimal_append_inj ht h
  refine ⟨?_, h⟩
  ext
  · exact h₁
  · exact h₂
  · exact h₃
  · exact h₄

theorem header_append_inj {between behind : List Byte} {s s' : Stamp} {r r' : List Byte}
    (hb : behind.head?.map CString.isDigit = some false)
    (h : header between behind s ++ r = header between behind s' ++ r') : s = s' ∧ r = r' := by
  simp only [header, List.append_assoc] at h
  rw [List.append_right_inj] at h
  obtain ⟨hnow, h⟩ := strftime_append_inj h
  rw [List.append_right_inj] at h
  obtain ⟨haddr, h⟩ := inetNtoa_append_inj (by decide) h
  obtain ⟨hport, h⟩ := CString.decimal_append_inj hb h
  refine ⟨?_, h⟩
  obtain ⟨now, addr, port⟩ := s
  obtain ⟨now', addr', port'⟩ := s'
  obtain rfl : now = now' := hnow
  obtain rfl : addr = addr' := haddr
  obtain rfl : port = port' := UInt16.toNat_inj.mp hport
  rfl

theorem newline_decimal (n : ℕ) : newline ∉ decimal n := fun h =>
  absurd (CString.isDigit_decimal h) (by decide)

theorem newline_header {between behind : List Byte} {s : Stamp} (hm : newline ∉ between)
    (hb : newline ∉ behind) : newline ∉ header between behind s := by
  simp only [header, strftime, twoDigits, inetNtoa, List.mem_append, newline_decimal, hm, hb,
    or_false, false_or]
  decide

theorem headers (p : Logger) : Headers newline p.header := by
  constructor
  · intro s
    cases p with
    | server => exact newline_header (by decide) (by decide)
    | daemonLogger => exact newline_header (by decide) (by decide)
  · intro s
    cases p <;> simp [Logger.header, header, ascii]
  · intro s s' r r'
    cases p with
    | server => exact header_append_inj (by decide)
    | daemonLogger => exact header_append_inj (by decide)

/-! ## The file is a journal of the datagrams -/

theorem receive_records (h : Carried r) (log : List Byte) :
    receive p log r = log ++ text p.header (records p [r]) := by
  cases r with
  | failed => simp [receive, records]
  | datagram s payload =>
    obtain ⟨hfits, hnul⟩ := h
    simp only [receive, records, List.take_of_length_le hfits, CString.cstr_of_noNul hnul]
    split
    · next hlogs => simp [hlogs]
    · next hlogs => simp [hlogs]

theorem run_eq_text (h : ∀ r ∈ rs, Carried r) : run p rs = text p.header (records p rs) := by
  induction rs using List.reverseRecOn with
  | nil => rfl
  | append_singleton rs r ih =>
    have hrs := ih fun x hx => h x (List.mem_append_left _ hx)
    rw [run, List.foldl_append, List.foldl_cons, List.foldl_nil]
    change receive p (run p rs) r = _
    rw [hrs, receive_records (h r (by simp))]
    simp [records, text]

/-- The file holds the records one behind the other. The lines that begin with a header are where
they start exactly when each record but the last ends its line and no payload has, behind a newline,
a text that begins with a header; and of two sequences for which this is so, each file tells which
it is. -/
theorem log_read_back (p : Logger) (rs : List Recv) (h : ∀ r ∈ rs, Carried r) :
    run p rs = text p.header (records p rs) ∧
    (Readable newline p.header (records p rs) ↔ Separable newline p.header (records p rs)) ∧
    ∀ rs', (∀ r ∈ rs', Carried r) → Separable newline p.header (records p rs) →
      Separable newline p.header (records p rs') → run p rs = run p rs' →
        records p rs = records p rs' := by
  refine ⟨run_eq_text h, readable_iff (headers p) _, fun rs' h' hs hs' heq => ?_⟩
  rw [run_eq_text h, run_eq_text h'] at heq
  exact text_injective (headers p) ((readable_iff (headers p) _).mpr hs)
    ((readable_iff (headers p) _).mpr hs') heq

def noon : Tm := ⟨2024, 4, 1, 12, 0, 0⟩
def alice : Stamp := ⟨noon, (10, 0, 0, 1), 5000⟩
def bob : Stamp := ⟨noon, (10, 0, 0, 2), 6000⟩

/-- Each of two clients sends something. -/
def both (first : List Byte) : List Recv :=
  [.datagram alice first, .datagram bob (ascii "yo\n")]

/-- Lines of two clients, with an empty one that the daemon does not log. -/
def lines : List Recv := [.datagram alice (ascii "hi\n"), .failed, .datagram bob (ascii "yo\n"),
  .datagram alice []]

theorem log_read_back_lines :
    Readable newline Logger.daemonLogger.header (records .daemonLogger lines) ∧
      records .daemonLogger lines = records .daemonLogger (both (ascii "hi\n")) := by
  obtain ⟨-, hiff, honly⟩ := log_read_back .daemonLogger lines (by decide)
  have hlines : Separable newline Logger.daemonLogger.header (records .daemonLogger lines) :=
    separable_of_lines (headers .daemonLogger) (by decide)
  refine ⟨hiff.mpr hlines, honly _ (by decide) hlines ?_ (by decide +kernel)⟩
  exact separable_of_lines (headers .daemonLogger) (by decide)

/-- Two sequences with one file. -/
def Confused (p : Logger) (rs rs' : List Recv) : Prop :=
  (∀ r ∈ rs ++ rs', Carried r) ∧ run p rs = run p rs' ∧ records p rs ≠ records p rs'

instance (p : Logger) (rs rs' : List Recv) : Decidable (Confused p rs rs') :=
  inferInstanceAs (Decidable (_ ∧ _ ∧ _))

/-- One client writes what the other would. -/
def forged (p : Logger) (first : List Byte) : List Recv :=
  [.datagram alice (first ++ (p.header bob ++ ascii "yo\n"))]

/-- The file does not tell whether the second client has sent anything, be the first payload with a
newline or without. -/
theorem forged_confused :
    (Confused .server (both (ascii "hi")) (forged .server (ascii "hi")) ∧
      Confused .server (both (ascii "hi\n")) (forged .server (ascii "hi\n"))) ∧
    Confused .daemonLogger (both (ascii "hi")) (forged .daemonLogger (ascii "hi")) ∧
      Confused .daemonLogger (both (ascii "hi\n")) (forged .daemonLogger (ascii "hi\n")) := by
  decide +kernel

end UdpLoggers
