import Mathlib.Algebra.Ring.Nat
import Mathlib.Tactic.Common

/-!
# Length-prefixed frames over byte streams

A frame is four bytes of length, most significant first, and that many bytes of body.
A `Pipe` is a byte stream with its history, so that what a reader was given is a prefix
of what the writer wrote, however the two were cut into chunks; a `Reader` collects a
length and then a body.
-/

namespace Frame

/-- `u32::to_be_bytes` of `n as u32`. -/
def be32 (n : ℕ) : List UInt8 :=
  [UInt8.ofNat (n / 2 ^ 24), UInt8.ofNat (n / 2 ^ 16), UInt8.ofNat (n / 2 ^ 8), UInt8.ofNat n]

/-- `u32::from_be_bytes`. -/
def ofBe32 (bs : List UInt8) : ℕ := bs.foldl (fun acc b => acc * 2 ^ 8 + b.toNat) 0

@[simp] theorem length_be32 (n : ℕ) : (be32 n).length = 4 := rfl

/-- Lengths from `2 ^ 32` on are cut. -/
theorem ofBe32_be32 (n : ℕ) : ofBe32 (be32 n) = n % 2 ^ 32 := by
  simp only [ofBe32, be32, List.foldl_cons, List.foldl_nil, UInt8.toNat_ofNat']
  omega

/-- The length prefix and the body. -/
def framed (body : List UInt8) : List UInt8 := be32 body.length ++ body

theorem length_framed (body : List UInt8) : (framed body).length = 4 + body.length := by
  simp [framed]

/-- What a length and as many bytes are, read off the front of a frame: a prefix of the
body, and all of it when the length fits. -/
theorem body_of_framed {head body whole : List UInt8} (hhead : head.length = 4)
    (hbody : body.length = ofBe32 head) (h : head ++ body <+: framed whole) :
    body <+: whole ∧ body.length = whole.length % 2 ^ 32 := by
  obtain ⟨rest, hrest⟩ := h
  rw [framed, List.append_assoc] at hrest
  obtain ⟨rfl, htail⟩ := List.append_inj hrest (by simpa using hhead)
  exact ⟨⟨rest, htail⟩, by rw [hbody, ofBe32_be32]⟩

/-- The length prefix of a frame is that of its body, when it fits. -/
theorem length_of_framed {head rest whole : List UInt8} (hhead : head.length = 4)
    (hwhole : whole.length < 2 ^ 32)
    (h : head ++ rest <+: framed whole) :
    ofBe32 head = whole.length := by
  obtain ⟨tail, htail⟩ := h
  rw [framed, List.append_assoc] at htail
  obtain ⟨rfl, -⟩ := List.append_inj htail (by simpa using hhead)
  rw [ofBe32_be32, Nat.mod_eq_of_lt hwhole]

/-! ### Streams -/

/-- Everything written so far, and how much of it has been read. -/
structure Pipe where
  wrote : List UInt8
  read : ℕ

namespace Pipe

variable (p : Pipe)

def empty : Pipe := ⟨[], 0⟩

def write (bytes : List UInt8) : Pipe := { p with wrote := p.wrote ++ bytes }

/-- The next `n` bytes. -/
def next (n : ℕ) : List UInt8 := (p.wrote.drop p.read).take n

def skip (n : ℕ) : Pipe := { p with read := p.read + n }

/-- What has been read. -/
def taken : List UInt8 := p.wrote.take p.read

/-- How much there is to read. -/
def pending : ℕ := p.wrote.length - p.read

@[simp] theorem wrote_empty : empty.wrote = [] := rfl

@[simp] theorem taken_empty : empty.taken = [] := rfl

@[simp] theorem wrote_write (bytes : List UInt8) : (p.write bytes).wrote = p.wrote ++ bytes := rfl

@[simp] theorem read_write (bytes : List UInt8) : (p.write bytes).read = p.read := rfl

@[simp] theorem wrote_skip (n : ℕ) : (p.skip n).wrote = p.wrote := rfl

theorem taken_prefix : p.taken <+: p.wrote := List.take_prefix _ _

/-- Reading on extends what has been read. -/
theorem taken_skip (n : ℕ) : (p.skip n).taken = p.taken ++ p.next n := by
  simp only [taken, skip, next]
  exact List.take_add

/-- Nothing is left to read once everything was. -/
theorem taken_of_pending (h : p.pending = 0) : p.taken = p.wrote := by
  simp only [pending] at h
  exact List.take_of_length_le (by omega)

theorem length_next {n : ℕ} (h : n ≤ p.pending) : (p.next n).length = n := by
  simp only [next, List.length_take, List.length_drop]
  exact Nat.min_eq_left h

/-- What has been read stays what it is when more is written. -/
theorem taken_write (bytes : List UInt8) (h : p.read ≤ p.wrote.length) :
    (p.write bytes).taken = p.taken := by
  simp only [taken, write]
  exact List.take_append_of_le_length h

end Pipe

/-! ### Reading one frame -/

/-- Reading a frame: the length, then as many bytes. -/
inductive Reader
  | length (got : List UInt8)
  | body (len : ℕ) (got : List UInt8)
  deriving DecidableEq

namespace Reader

def start : Reader := .length []

/-- How many bytes are still missing from the part being read. -/
def missing : Reader → ℕ
  | length got => 4 - got.length
  | body len got => len - got.length

/-- Take some bytes in. -/
def feed (bytes : List UInt8) : Reader → Reader
  | length got => .length (got ++ bytes)
  | body len got => .body len (got ++ bytes)

/-- The reader has taken in exactly these bytes. -/
def Took (bytes : List UInt8) : Reader → Prop
  | length got => bytes = got ∧ got.length ≤ 4
  | body len got => ∃ head : List UInt8, head.length = 4 ∧ len = ofBe32 head ∧
      got.length ≤ len ∧ bytes = head ++ got

variable {r : Reader} {bytes more : List UInt8}

theorem took_start : start.Took [] := ⟨rfl, Nat.zero_le _⟩

theorem Took.feed (h : r.Took bytes) (hmore : more.length ≤ r.missing) :
    (r.feed more).Took (bytes ++ more) := by
  cases r with
  | length got =>
      obtain ⟨rfl, hlen⟩ := h
      simp only [missing] at hmore
      exact ⟨rfl, by rw [List.length_append]; omega⟩
  | body len got =>
      obtain ⟨head, hhead, hlen, hgot, rfl⟩ := h
      simp only [missing] at hmore
      refine ⟨head, hhead, hlen, by rw [List.length_append]; omega, ?_⟩
      rw [List.append_assoc]

/-- From the length to the body. -/
theorem Took.advance {got : List UInt8} (h : (Reader.length got).Took bytes)
    (hgot : got.length = 4) : (Reader.body (ofBe32 got) []).Took bytes := by
  obtain ⟨rfl, -⟩ := h
  exact ⟨bytes, hgot, rfl, Nat.zero_le _, (List.append_nil _).symm⟩

theorem missing_feed (r : Reader) {bytes : List UInt8} (hpos : 0 < bytes.length)
    (hle : bytes.length ≤ r.missing) : (r.feed bytes).missing < r.missing := by
  cases r <;>
  · simp only [missing, feed, List.length_append] at hle ⊢
    omega

/-- A reader with nothing missing has its length, or its body. -/
theorem Took.full (h : r.Took bytes) (hmissing : r.missing = 0) :
    (∃ got, r = .length got ∧ got.length = 4) ∨ ∃ len got, r = .body len got ∧ got.length = len := by
  cases r with
  | length got =>
      obtain ⟨rfl, hle⟩ := h
      simp only [missing] at hmissing
      exact Or.inl ⟨_, rfl, by omega⟩
  | body len got =>
      obtain ⟨head, -, -, hle, -⟩ := h
      simp only [missing] at hmissing
      exact Or.inr ⟨len, got, rfl, by omega⟩

end Reader

/-- Whoever has taken in a whole frame misses nothing. -/
theorem Reader.Took.missing_eq_zero {r : Reader} {whole : List UInt8}
    (h : r.Took (framed whole)) (hwhole : whole.length < 2 ^ 32) : r.missing = 0 := by
  have hlen := length_framed whole
  cases r with
  | length got =>
      obtain ⟨rfl, -⟩ := h
      simp only [missing]
      omega
  | body len got =>
      obtain ⟨head, hhead, rfl, -, hbytes⟩ := h
      have hpre : head ++ got <+: framed whole := hbytes ▸ List.prefix_rfl
      have hhead' := length_of_framed hhead hwhole hpre
      rw [hbytes, List.length_append] at hlen
      simp only [missing]
      omega

/-- A whole frame of this body stands at the front of the bytes. -/
def Starts (bytes : List UInt8) (body : List UInt8) : Prop :=
  ∃ head : List UInt8, head.length = 4 ∧ body.length = ofBe32 head ∧ head ++ body <+: bytes

theorem Starts.mono {bytes bytes' body : List UInt8} (h : Starts bytes body)
    (hle : bytes <+: bytes') : Starts bytes' body := by
  obtain ⟨head, hhead, hbody, hpre⟩ := h
  exact ⟨head, hhead, hbody, hpre.trans hle⟩

/-- The only body that a frame starts with is its own. -/
theorem Starts.eq_of_framed {bytes body whole : List UInt8} (h : Starts bytes body)
    (hbytes : bytes <+: framed whole) (hwhole : whole.length < 2 ^ 32) : body = whole := by
  obtain ⟨head, hhead, hbody, hpre⟩ := h
  obtain ⟨hstart, hlen⟩ := body_of_framed hhead hbody (hpre.trans hbytes)
  exact hstart.eq_of_length (by rw [hlen, Nat.mod_eq_of_lt hwhole])

/-- What was read as a frame is one. -/
theorem Reader.Took.starts {p : Pipe} {len : ℕ} {got : List UInt8}
    (h : (Reader.body len got).Took p.taken) (hgot : got.length = len) : Starts p.wrote got := by
  obtain ⟨head, hhead, hlen, -, hbytes⟩ := h
  exact ⟨head, hhead, hgot.trans hlen, hbytes ▸ p.taken_prefix⟩

end Frame
