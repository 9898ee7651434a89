import Chiptune.File.Record

/-!
# Counted tables and recordings

Tables of a module file begin with a signed count, and a negative count stands for an empty table.
Recordings come as a list of sizes, then all bytes in the same order.

* `length_of_count?`, `length_of_recordings?`: what follows is no longer than the input.
* `count?_encodeCount`, `recordings?_flatten`: what was written is read back.
-/

namespace Chiptune.Counted

open Layout

def count? (s : Bytes) : Option (Nat × Bytes) :=
  (word32.read? s).map fun (n, rest) => (if n.toNat < 0x80000000 then n.toNat else 0, rest)

def encodeCount (n : Nat) : Bytes :=
  Word.bigBytes 4 n

/-- A table of records after its count, each count standing for `group` records. -/
def table? {α : Type} (l : Layout α) (group : Nat) (s : Bytes) : Option (Array α × Bytes) :=
  (count? s).bind fun (n, rest) => l.take? (n * group) rest

/-- Recordings of the given sizes, one after the other. -/
def recordings? : List Nat → Bytes → Option (List (Array UInt8) × Bytes)
  | [], s => some ([], s)
  | n :: sizes, s =>
    if n ≤ s.length then
      (recordings? sizes (s.drop n)).map fun (later, rest) => ((s.take n).toArray :: later, rest)
    else none

/-- The sizes of `n` recordings, then the recordings. -/
def sized? (n : Nat) (s : Bytes) : Option (List (Array UInt8) × Bytes) :=
  (word32.take? n s).bind fun (sizes, rest) => recordings? (sizes.toList.map UInt32.toNat) rest

def samples? (s : Bytes) : Option (Array Sample × Bytes) := do
  let (n, s) ← count? s
  let (infos, s) ← Record.sampleInfo.take? n s
  let (recordings, s) ← sized? n s
  return ((List.zipWith Sample.mk infos.toList recordings).toArray, s)

def bareSamples? (s : Bytes) : Option (Array Sample × Bytes) := do
  let (n, s) ← count? s
  let (recordings, s) ← sized? n s
  return ((recordings.map Sample.bare).toArray, s)

def encodeSized (recordings : List (Array UInt8)) : Bytes :=
  recordings.flatMap (fun r => Word.bigBytes 4 r.size) ++ recordings.flatMap Array.toList

def encodeSamples (samples : Array Sample) : Bytes :=
  encodeCount samples.size ++ Record.sampleInfo.encodeAll (samples.map Sample.info) ++
    encodeSized (samples.toList.map Sample.data)

theorem count?_encodeCount {n : Nat} (h : n < 0x80000000) (rest : Bytes) :
    count? (encodeCount n ++ rest) = some (n, rest) := by
  have hn : (UInt32.ofNat n).toNat = n := by
    simp only [UInt32.toNat_ofNat']
    omega
  have : word32.read? (encodeCount n ++ rest) = some (UInt32.ofNat n, rest) := by
    rw [read?_eq_some_iff word32_exact]
    simp [word32, hn, encodeCount]
  rw [count?, this]
  simp only [Option.map_some, hn]
  rw [if_pos h]

theorem recordings?_flatten (recordings : List (Array UInt8)) (rest : Bytes) :
    recordings? (recordings.map Array.size) (recordings.flatMap Array.toList ++ rest) =
      some (recordings, rest) := by
  induction recordings with
  | nil => rfl
  | cons r later ih =>
    have hr : r.toList.length = r.size := by simp
    simp [recordings?, List.append_assoc, List.drop_left' hr, List.take_left' hr, ih]

theorem length_of_count? {s rest : Bytes} {n : Nat} (h : count? s = some (n, rest)) :
    rest.length + 4 = s.length := by
  unfold count? read? at h
  split at h
  · simp only [Option.map_some, Option.some.injEq, Prod.mk.injEq] at h
    obtain ⟨-, rfl⟩ := h
    have : 4 ≤ s.length := by assumption
    simp [word32]
    omega
  · simp at h

theorem length_of_table? {α : Type} {l : Layout α} {group : Nat} {s rest : Bytes} {xs : Array α}
    (h : table? l group s = some (xs, rest)) : rest.length ≤ s.length := by
  obtain ⟨⟨n, middle⟩, hc, ht⟩ := Option.bind_eq_some_iff.1 h
  have h1 := length_of_count? hc
  have h2 := length_of_take? ht
  omega

theorem length_of_recordings? {sizes : List Nat} {s rest : Bytes} {rs : List (Array UInt8)}
    (h : recordings? sizes s = some (rs, rest)) : rest.length ≤ s.length := by
  induction sizes generalizing s rs with
  | nil =>
    simp only [recordings?, Option.some.injEq, Prod.mk.injEq] at h
    simp [h.2]
  | cons n sizes ih =>
    unfold recordings? at h
    split at h
    · obtain ⟨⟨later, last⟩, hr, he⟩ := Option.map_eq_some_iff.1 h
      obtain ⟨-, rfl⟩ := Prod.mk.inj he
      have := ih hr
      simp only [List.length_drop] at this
      omega
    · simp at h

theorem length_of_sized? {n : Nat} {s rest : Bytes} {rs : List (Array UInt8)}
    (h : sized? n s = some (rs, rest)) : rest.length ≤ s.length := by
  obtain ⟨⟨sizes, middle⟩, ht, hr⟩ := Option.bind_eq_some_iff.1 h
  have h1 := length_of_take? ht
  have h2 := length_of_recordings? hr
  omega

theorem length_of_samples? {s rest : Bytes} {xs : Array Sample}
    (h : samples? s = some (xs, rest)) : rest.length ≤ s.length := by
  simp only [samples?, Option.bind_eq_bind, Option.bind_eq_some_iff] at h
  obtain ⟨⟨n, s₁⟩, hc, ⟨infos, s₂⟩, hi, ⟨rs, s₃⟩, hr, he⟩ := h
  have h1 : s₁.length + 4 = s.length := length_of_count? hc
  have h2 : s₂.length ≤ s₁.length := length_of_take? hi
  have h3 : s₃.length ≤ s₂.length := length_of_sized? hr
  simp at he
  obtain ⟨-, rfl⟩ := he
  omega

end Chiptune.Counted
