import Chiptune.Bytes.Word

/-!
# Fixed-size layouts

A layout says how a value of a type lies in a fixed number of bytes. `Layout.Exact` collects its
laws: every value takes exactly `size` bytes, reading what was written gives the value back, and
writing what was read gives the bytes back. Each combinator keeps all three, so the layout of a
record is exact because those of its fields are.

* `pair_exact`, `map_exact`, `vector_exact`: the combinators keep the laws.
* `many_flatMap`, `flatMap_many`: the laws for a run of records, one after the other.
* `take?_eq_some_iff`: a run of `n` records is read from exactly the inputs that begin with one.
-/

namespace Chiptune

/-- How a value of `α` lies in `size` bytes. -/
structure Layout (α : Type) where
  size : Nat
  encode : α → Bytes
  /-- The value at the front of a byte string of at least `size` bytes. -/
  decode : Bytes → α

namespace Layout

variable {α β : Type}

/-- The laws of a layout. -/
structure Exact (l : Layout α) : Prop where
  /-- Every value takes `size` bytes. -/
  length_encode : ∀ x, (l.encode x).length = l.size
  /-- What was written is read back, whatever follows it. -/
  decode_encode : ∀ x rest, l.decode (l.encode x ++ rest) = x
  /-- What was read is written back. -/
  encode_decode : ∀ s, l.size ≤ s.length → l.encode (l.decode s) = s.take l.size

/-! ## Words -/

def byte : Layout UInt8 where
  size := 1
  encode x := [x]
  decode s := s.headD 0

/-- An unsigned 16-bit word, most significant byte first. -/
def word16 : Layout UInt16 where
  size := 2
  encode x := Word.bigBytes 2 x.toNat
  decode s := UInt16.ofNat (Word.big (s.take 2))

/-- An unsigned 32-bit word, most significant byte first. -/
def word32 : Layout UInt32 where
  size := 4
  encode x := Word.bigBytes 4 x.toNat
  decode s := UInt32.ofNat (Word.big (s.take 4))

theorem byte_exact : byte.Exact where
  length_encode _ := rfl
  decode_encode _ _ := rfl
  encode_decode s h := by
    cases s with
    | nil => simp [byte] at h
    | cons b rest => simp [byte]

theorem word16_exact : word16.Exact where
  length_encode _ := by simp [word16]
  decode_encode x rest := by
    have hx : x.toNat < Word.span 2 := x.toNat_lt
    simp [word16, List.take_left' (Word.length_bigBytes 2 x.toNat), Word.big_bigBytes hx]
  encode_decode s h := by
    have hl : (s.take 2).length = 2 := by simp [word16] at h ⊢; omega
    have hb : Word.big (s.take 2) < 0x10000 := by
      have := Word.big_lt (s.take 2)
      rwa [hl] at this
    have hw := Word.bigBytes_big (s.take 2)
    rw [hl] at hw
    simp only [word16, UInt16.toNat_ofNat']
    rw [Nat.mod_eq_of_lt hb, hw]

theorem word32_exact : word32.Exact where
  length_encode _ := by simp [word32]
  decode_encode x rest := by
    have hx : x.toNat < Word.span 4 := x.toNat_lt
    simp [word32, List.take_left' (Word.length_bigBytes 4 x.toNat), Word.big_bigBytes hx]
  encode_decode s h := by
    have hl : (s.take 4).length = 4 := by simp [word32] at h ⊢; omega
    have hb : Word.big (s.take 4) < 0x100000000 := by
      have := Word.big_lt (s.take 4)
      rwa [hl] at this
    have hw := Word.bigBytes_big (s.take 4)
    rw [hl] at hw
    simp only [word32, UInt32.toNat_ofNat']
    rw [Nat.mod_eq_of_lt hb, hw]

/-! ## Combinators -/

def pair (a : Layout α) (b : Layout β) : Layout (α × β) where
  size := a.size + b.size
  encode x := a.encode x.1 ++ b.encode x.2
  decode s := (a.decode s, b.decode (s.drop a.size))

def map (l : Layout α) (read : α → β) (written : β → α) : Layout β where
  size := l.size
  encode x := l.encode (written x)
  decode s := read (l.decode s)

/-- The first `n` records of a byte string. -/
def many (l : Layout α) : Nat → Bytes → List α
  | 0, _ => []
  | n + 1, s => l.decode s :: many l n (s.drop l.size)

@[simp]
theorem length_many (l : Layout α) (n : Nat) (s : Bytes) : (l.many n s).length = n := by
  induction n generalizing s with
  | zero => rfl
  | succ n ih => simp [many, ih]

def vector (n : Nat) (l : Layout α) : Layout (Vector α n) where
  size := n * l.size
  encode x := x.toList.flatMap l.encode
  decode s := ⟨(l.many n s).toArray, by simp⟩

theorem pair_exact {a : Layout α} {b : Layout β} (ha : a.Exact) (hb : b.Exact) :
    (a.pair b).Exact where
  length_encode x := by simp [pair, ha.length_encode, hb.length_encode]
  decode_encode x rest := by
    simp only [pair, List.append_assoc, ha.decode_encode, List.drop_left' (ha.length_encode x.1),
      hb.decode_encode]
  encode_decode s h := by
    simp only [pair] at h
    have hd : b.size ≤ (s.drop a.size).length := by simp; omega
    simp only [pair, ha.encode_decode s (by omega), hb.encode_decode _ hd]
    exact List.take_add.symm

theorem map_exact {l : Layout α} {read : α → β} {written : β → α} (hl : l.Exact)
    (read_written : ∀ y, read (written y) = y) (written_read : ∀ x, written (read x) = x) :
    (l.map read written).Exact where
  length_encode _ := hl.length_encode _
  decode_encode x rest := by simp [map, hl.decode_encode, read_written]
  encode_decode s h := by simpa [map, written_read] using hl.encode_decode s h

theorem length_flatMap {l : Layout α} (hl : l.Exact) (xs : List α) :
    (xs.flatMap l.encode).length = xs.length * l.size := by
  induction xs with
  | nil => simp
  | cons x xs ih => simp [hl.length_encode, ih, Nat.succ_mul, Nat.add_comm]

/-- A written run of records is read back, whatever follows it. -/
theorem many_flatMap {l : Layout α} (hl : l.Exact) (xs : List α) (rest : Bytes) :
    l.many xs.length (xs.flatMap l.encode ++ rest) = xs := by
  induction xs with
  | nil => rfl
  | cons x xs ih =>
    simp only [List.length_cons, many, List.flatMap_cons, List.append_assoc, hl.decode_encode,
      List.drop_left' (hl.length_encode x), ih]

/-- A read run of records is written back. -/
theorem flatMap_many {l : Layout α} (hl : l.Exact) (n : Nat) (s : Bytes)
    (h : n * l.size ≤ s.length) : (l.many n s).flatMap l.encode = s.take (n * l.size) := by
  induction n generalizing s with
  | zero => simp [many]
  | succ n ih =>
    rw [Nat.succ_mul] at h
    have hd : n * l.size ≤ (s.drop l.size).length := by simp; omega
    simp only [many, List.flatMap_cons, hl.encode_decode s (by omega), ih _ hd]
    rw [Nat.succ_mul, Nat.add_comm (n * l.size)]
    exact List.take_add.symm

theorem vector_exact {l : Layout α} (hl : l.Exact) (n : Nat) : (vector n l).Exact where
  length_encode x := by simp [vector, length_flatMap hl]
  decode_encode x rest := by
    have := many_flatMap hl x.toList rest
    simp only [Vector.length_toList] at this
    apply Vector.toList_inj.1
    simpa [vector, Vector.toList] using this
  encode_decode s h := by simpa [vector, Vector.toList] using flatMap_many hl n s h

/-! ## Derived layouts -/

def signedByte : Layout Int8 :=
  byte.map UInt8.toInt8 Int8.toUInt8

/-- A signed 16-bit word, most significant byte first. -/
def signed16 : Layout Int16 :=
  word16.map UInt16.toInt16 Int16.toUInt16

theorem signedByte_exact : signedByte.Exact :=
  map_exact byte_exact (fun _ => by simp) (fun _ => by simp)

theorem signed16_exact : signed16.Exact :=
  map_exact word16_exact (fun _ => by simp) (fun _ => by simp)

/-! ## Reading from the front -/

/-- The first record of a byte string and what follows it, or `none` when it is cut short. -/
def read? (l : Layout α) (s : Bytes) : Option (α × Bytes) :=
  if l.size ≤ s.length then some (l.decode s, s.drop l.size) else none

/-- The first `n` records of a byte string and what follows them, or `none` when they are cut
short. -/
def take? (l : Layout α) (n : Nat) (s : Bytes) : Option (Array α × Bytes) :=
  if n * l.size ≤ s.length then some ((l.many n s).toArray, s.drop (n * l.size)) else none

def encodeAll (l : Layout α) (xs : Array α) : Bytes :=
  xs.toList.flatMap l.encode

theorem length_encodeAll {l : Layout α} (hl : l.Exact) (xs : Array α) :
    (l.encodeAll xs).length = xs.size * l.size := by
  simp [encodeAll, length_flatMap hl]

/-- A record is read from exactly the inputs that begin with one. -/
theorem read?_eq_some_iff {l : Layout α} (hl : l.Exact) {s rest : Bytes} {x : α} :
    l.read? s = some (x, rest) ↔ s = l.encode x ++ rest := by
  constructor
  · intro h
    unfold read? at h
    split at h
    · obtain ⟨rfl, rfl⟩ := by simpa using h
      rw [hl.encode_decode s (by assumption), List.take_append_drop]
    · simp at h
  · rintro rfl
    simp [read?, hl.length_encode, hl.decode_encode, List.drop_left' (hl.length_encode x)]

/-- A run of `n` records is read from exactly the inputs that begin with one. -/
theorem take?_eq_some_iff {l : Layout α} (hl : l.Exact) {n : Nat} {s rest : Bytes}
    {xs : Array α} : l.take? n s = some (xs, rest) ↔ xs.size = n ∧ s = l.encodeAll xs ++ rest := by
  constructor
  · intro h
    unfold take? at h
    split at h
    · obtain ⟨rfl, rfl⟩ := by simpa using h
      refine ⟨by simp, ?_⟩
      rw [encodeAll, flatMap_many hl n s (by assumption), List.take_append_drop]
    · simp at h
  · rintro ⟨rfl, rfl⟩
    have hm := many_flatMap hl xs.toList rest
    have hlen := length_encodeAll hl xs
    simp only [Array.length_toList] at hm
    simp [take?, hlen, List.drop_left' hlen]
    simpa [encodeAll] using congrArg List.toArray hm

/-- What follows a run of records is no longer than the input. -/
theorem length_of_take? {l : Layout α} {n : Nat} {s rest : Bytes} {xs : Array α}
    (h : l.take? n s = some (xs, rest)) : rest.length ≤ s.length := by
  unfold take? at h
  split at h
  · obtain ⟨-, rfl⟩ := by simpa using h
    simp
  · simp at h

end Layout

end Chiptune
