import Chiptune.Bytes.Word

/-!
# Samples

A sample is a recording of signed bytes with a name and two lengths in words.
-/

namespace Chiptune

/-- What a module file says about a sample besides its bytes. -/
structure SampleInfo where
  /-- Length in words. -/
  length : UInt16
  /-- Length of the repeated part in words. -/
  loop : UInt16
  /-- Name, closed by a zero byte. -/
  name : Vector UInt8 30
  /-- Bytes without a known meaning. -/
  reserved : Vector UInt8 4
  deriving DecidableEq, Repr, Inhabited

/-- A recording of signed bytes. -/
structure Sample where
  info : SampleInfo
  data : Array UInt8
  deriving DecidableEq, Repr, Inhabited

namespace Sample

/-- The description of a bare recording: its length in whole words, as far as a word can tell. -/
def bareInfo (data : Array UInt8) : SampleInfo where
  length := UInt16.ofNat (min (data.size / 2) 65535)
  loop := 1
  name := Vector.replicate 30 0
  reserved := Vector.replicate 4 0

/-- A recording that comes without a description. -/
def bare (data : Array UInt8) : Sample :=
  ⟨bareInfo data, data⟩

theorem length_bare (data : Array UInt8) :
    (bare data).info.length.toNat = min (data.size / 2) 65535 := by
  have hw : min (data.size / 2) 65535 < 0x10000 := by omega
  simp only [bare, bareInfo, UInt16.toNat_ofNat']
  exact Nat.mod_eq_of_lt hw

end Sample

end Chiptune
