import Mathlib
import Chiptune.Proofs.Writes
import Chiptune.Render.Session

/-!
# Renditions agree

A song is rendered with signed samples, with unsigned ones, or as a WAV file. The three go different
ways: a stream moves the silence chunk by chunk as it hands them out, and a file of signed
samples has it moved at the end. All come to the same samples, and fail for the same reasons.

* `Stream.drain_unsigned`: **an unsigned write is the signed one with its silence moved**, whatever
  the receiver does.
* `Wav.read?`: a reader of WAV files that follows the sizes they give; `Wav.read?_encode`: what it
  finds in a written one.
* `Session.renders_agree`: all of this for every song of every score.
-/

namespace Chiptune

/-! ## Writes -/

namespace Stream

variable {s : Stream} {unsigned : Bool} {sink : Sink} {w : Written}

/-- A write with the silence of all its chunks moved. -/
def Written.moved (w : Written) : Written :=
  { w with chunks := w.chunks.map toUnsigned }

theorem sent_not (unsigned : Bool) (data : Array UInt8) :
    (if !unsigned then toUnsigned data else data) =
      toUnsigned (if unsigned then toUnsigned data else data) := by
  cases unsigned
  · rfl
  · exact (toUnsigned_toUnsigned data).symm

/-- **A write of the other sign comes to its end as well**, with the silence moved in each chunk. -/
theorem drain_not (h : s.drain unsigned sink = some w) :
    s.drain (!unsigned) sink = some w.moved := by
  refine drain.partial_correctness unsigned
    (fun sink s w => s.drain (!unsigned) sink = some w.moved) ?_ sink s w h
  intro drain ih sink s w h
  rw [Stream.drain]
  split at h
  · rename_i hend
    obtain rfl := Option.some.inj h
    exact if_pos hend
  rename_i hopen
  rw [if_neg hopen]
  split at h
  · obtain rfl := Option.some.inj h
    rfl
  split at h
  · rename_i hfull
    obtain rfl := Option.some.inj h
    exact if_pos hfull
  rename_i hroom
  obtain ⟨rest, hrest, hw⟩ := Option.bind_eq_some_iff.1 h
  obtain rfl := Option.some.inj hw
  rw [if_neg hroom, ih _ _ _ hrest, sent_not]
  rfl

/-- **An unsigned write is the signed one with its silence moved.** -/
theorem drain_unsigned (s : Stream) (sink : Sink) :
    s.drain true sink = (s.drain false sink).map Written.moved := by
  cases hsigned : s.drain false sink with
  | some w => exact drain_not hsigned
  | none =>
    cases hunsigned : s.drain true sink with
    | none => rfl
    | some w =>
      have hback : s.drain false sink = some w.moved := drain_not hunsigned
      rw [hsigned] at hback
      cases hback

theorem write_unsigned (s : Stream) (loops : ℕ) (fromStart : Bool) (sink : Sink) :
    s.write loops fromStart true sink = (s.write loops fromStart false sink).moved := by
  unfold write
  split
  · rfl
  · dsimp only
    rw [drain_unsigned]
    cases ((if fromStart then s.reset else s).limited (some loops)).drain false sink <;> rfl

theorem Written.pcm_moved (w : Written) : w.moved.pcm = toUnsigned w.pcm := by
  refine Array.toList_inj.1 ?_
  rw [Written.toList_pcm, toUnsigned, Array.toList_map, Written.toList_pcm, Written.moved,
    List.map_flatMap, List.flatMap_map]
  refine List.flatMap_congr fun data _ => ?_
  exact Array.toList_map

theorem Written.whole_moved (w : Written) : w.moved.whole = w.whole.map toUnsigned := by
  obtain ⟨chunks, fault, stream⟩ := w
  cases fault with
  | some fault => rfl
  | none => exact congrArg Except.ok (Written.pcm_moved ⟨chunks, none, stream⟩)

end Stream

/-! ## Files -/

namespace Wav

variable {a r : Bytes} {n w : ℕ}

/-- The first bytes of an input, if it has so many, and what follows them. -/
def split? (n : ℕ) (s : Bytes) : Option (Bytes × Bytes) :=
  if n ≤ s.length then some (s.take n, s.drop n) else none

/-- The number that the first bytes of an input spell, low byte first. -/
def word? (w : ℕ) (s : Bytes) : Option (ℕ × Bytes) :=
  (split? w s).map fun found => (Word.little found.1, found.2)

/-- A chunk: its name, the length of its payload, and the payload. -/
def chunk (name : String) (payload : Bytes) : Bytes :=
  letters name ++ (Word.littleBytes 4 payload.length ++ payload)

/-- The payload of a leading chunk with a name, and what follows the chunk. -/
def chunk? (name : String) (s : Bytes) : Option (Bytes × Bytes) := do
  let (found, s) ← split? 4 s
  guard (found = letters name)
  let (size, s) ← word? 4 s
  split? size s

/-- What a WAV file says about its samples. -/
structure Description where
  /-- The kind of samples; 1 stands for plain numbers. -/
  kind : ℕ
  channels : ℕ
  /-- Frames in a second. -/
  rate : ℕ
  /-- Bytes in a second. -/
  byteRate : ℕ
  /-- Bytes in a frame. -/
  frameSize : ℕ
  /-- Bits in a sample. -/
  bits : ℕ
  deriving DecidableEq, Repr

/-- Reads the payload of a `fmt` chunk. -/
def describe? (s : Bytes) : Option Description := do
  guard (s.length = 16)
  let (kind, s) ← word? 2 s
  let (channels, s) ← word? 2 s
  let (rate, s) ← word? 4 s
  let (byteRate, s) ← word? 4 s
  let (frameSize, s) ← word? 2 s
  let (bits, _) ← word? 2 s
  return { kind, channels, rate, byteRate, frameSize, bits }

/-- Reads a WAV file: one chunk that fills it, in which a `fmt` chunk comes before a `data` chunk that
goes to the end. -/
def read? (file : Bytes) : Option (Description × Bytes) := do
  let (body, after) ← chunk? "RIFF" file
  guard (after = [])
  let (form, body) ← split? 4 body
  guard (form = letters "WAVE")
  let (fmt, body) ← chunk? "fmt " body
  let description ← describe? fmt
  let (samples, after) ← chunk? "data" body
  guard (after = [])
  return (description, samples)

theorem split?_append (h : a.length = n) : split? n (a ++ r) = some (a, r) := by
  subst h
  simp [split?]

theorem word?_append (h : n < Word.span w) :
    word? w (Word.littleBytes w n ++ r) = some (n, r) := by
  rw [word?, split?_append (Word.length_littleBytes w n), Option.map_some,
    Word.little_littleBytes h]

theorem chunk?_chunk {name : String} (hname : (letters name).length = 4)
    (ha : a.length < Word.span 4) : chunk? name (chunk name a ++ r) = some (a, r) := by
  simp [chunk?, chunk, split?_append hname, word?_append ha, split?_append]

theorem chunk?_last {name : String} (hname : (letters name).length = 4)
    (ha : a.length < Word.span 4) : chunk? name (chunk name a) = some (a, []) := by
  rw [← List.append_nil (chunk name a)]
  exact chunk?_chunk hname ha

/-- The description of 8-bit samples for some outputs. -/
def description (rate : ℕ) (outputs : Outputs) : Description :=
  { kind := 1, channels := outputs.count, rate, byteRate := rate * outputs.count,
    frameSize := outputs.count, bits := 8 }

theorem length_bytes (f : Format) : f.bytes.length = 16 := by
  simp [Format.bytes]

theorem describe?_bytes {rate : ℕ} {outputs : Outputs} (hrate : rate < Word.span 4)
    (hbyteRate : rate * outputs.count < Word.span 4) :
    describe? (format rate outputs).bytes = some (description rate outputs) := by
  have hkind : 1 < Word.span 2 := by decide
  have hcount : outputs.count < Word.span 2 := by cases outputs <;> decide
  have hbits : 8 < Word.span 2 := by decide
  have hlast := word?_append (r := []) hbits
  rw [List.append_nil] at hlast
  rw [describe?, length_bytes, Format.bytes]
  simp [format, Format.frameSize, word?_append hkind, word?_append hcount, word?_append hrate,
    word?_append hbyteRate, hlast, description]

/-- The payload of the chunk that a file is. -/
def body (rate : ℕ) (outputs : Outputs) (pcm : Array UInt8) : Bytes :=
  letters "WAVE" ++ (chunk "fmt " (format rate outputs).bytes ++ chunk "data" pcm.toList)

theorem length_body (rate : ℕ) (outputs : Outputs) (pcm : Array UInt8) :
    (body rate outputs pcm).length = 36 + pcm.size := by
  simp [body, chunk, length_bytes, letters]
  omega

/-- **The sizes in a written file are those of its parts.** -/
theorem toList_encode (rate : ℕ) (outputs : Outputs) (pcm : Array UInt8) :
    (encode rate outputs pcm).toList = chunk "RIFF" (body rate outputs pcm) := by
  rw [chunk, length_body]
  simp [body, encode, header, chunk, length_bytes]

/-- **A written file is read as what it was written for**, if its size can be said in four bytes. -/
theorem read?_encode {rate : ℕ} {outputs : Outputs} {pcm : Array UInt8}
    (hrate : rate < Word.span 4) (hbyteRate : rate * outputs.count < Word.span 4)
    (hsize : 36 + pcm.size < Word.span 4) :
    read? (encode rate outputs pcm).toList = some (description rate outputs, pcm.toList) := by
  have hriff : chunk? "RIFF" (encode rate outputs pcm).toList =
      some (body rate outputs pcm, []) := by
    rw [toList_encode]
    exact chunk?_last (by decide) (by rwa [length_body])
  have hform : split? 4 (body rate outputs pcm) = some (letters "WAVE",
      chunk "fmt " (format rate outputs).bytes ++ chunk "data" pcm.toList) :=
    split?_append (by decide)
  have hfmt : chunk? "fmt " (chunk "fmt " (format rate outputs).bytes ++ chunk "data" pcm.toList) =
      some ((format rate outputs).bytes, chunk "data" pcm.toList) :=
    chunk?_chunk (by decide) (by rw [length_bytes]; decide)
  have hdata : chunk? "data" (chunk "data" pcm.toList) = some (pcm.toList, []) :=
    chunk?_last (by decide) (by rw [Array.length_toList]; omega)
  simp [read?, hriff, hform, hfmt, hdata, describe?_bytes hrate hbyteRate]

end Wav

/-! ## Sessions -/

namespace Session

variable {s : Session} {song : ℕ} {setup : Setup}

/-- Unsigned samples are the signed ones with their silence moved. -/
theorem render_unsigned (s : Session) (song : ℕ) (setup : Setup) (loops : ℕ) :
    s.render song setup loops true = (s.render song setup loops false).map toUnsigned := by
  unfold render
  cases s.stream song setup with
  | error fault => rfl
  | ok stream =>
    dsimp only
    rw [Stream.write_unsigned, Stream.Written.whole_moved]
    cases (stream.write loops true false .endless).whole <;> rfl

/-- No write of a song that is started goes on forever, and its rate is within the limits. -/
theorem stream_eq_ok {stream : Stream} (h : s.stream song setup = .ok stream) :
    (∀ loops unsigned sink, ((stream.reset.limited (some loops)).drain unsigned sink).isSome) ∧
      setup.rate ≤ 200000 := by
  have hstart : Stream.start s.score song setup = .ok stream := by
    revert h
    unfold Session.stream
    split
    · exact nofun
    · rename_i hstart
      intro h
      rw [hstart, Except.ok.inj h]
  obtain ⟨hready, _, _, hstream⟩ := Stream.start_eq_ok hstart
  refine ⟨fun loops unsigned sink => hready.rewound.drain_isSome loops unsigned sink, ?_⟩
  have hrate := hready.steady.song.rate_le
  rwa [hstream] at hrate

/-- What is rendered has a rate within the limits. -/
theorem rate_le_of_render {loops : ℕ} {unsigned : Bool} {pcm : Array UInt8}
    (h : s.render song setup loops unsigned = .ok pcm) : setup.rate ≤ 200000 := by
  unfold render at h
  split at h
  · cases h
  · rename_i hstream
    exact (stream_eq_ok hstream).2

/-- **All renditions of a song agree.** No write of it goes on forever. If the signed samples fail, the
unsigned ones and the WAV file fail for the same reason. If they do not, each unsigned sample is the
signed one plus 128, and the WAV file is the one of the signed samples. A file whose sizes fit their
words is read as plain 8-bit samples for the outputs and the rate asked for, and they are the unsigned
ones. -/
theorem renders_agree (s : Session) (song : ℕ) (setup : Setup) (loops : ℕ) :
    (∀ stream, s.stream song setup = .ok stream → ∀ unsigned,
      ((stream.reset.limited (some loops)).drain unsigned .endless).isSome) ∧
    match s.render song setup loops false with
    | .error fault =>
      s.render song setup loops true = .error fault ∧ s.wav song setup loops = .error fault
    | .ok pcm =>
      s.render song setup loops true = .ok (pcm.map (· + 128)) ∧
      ∃ file, s.wav song setup loops = .ok file ∧ file = Wav.ofSigned setup.rate setup.outputs pcm ∧
        (pcm.size ≤ 2 ^ 32 - 37 →
          Wav.read? file.toList = some
            ({ kind := 1, channels := setup.outputs.count, rate := setup.rate
               byteRate := setup.rate * setup.outputs.count, frameSize := setup.outputs.count
               bits := 8 }, (pcm.map (· + 128)).toList)) := by
  refine ⟨fun stream h unsigned => (stream_eq_ok h).1 loops unsigned .endless, ?_⟩
  have hunsigned := render_unsigned s song setup loops
  have hwav := wav_eq s song setup loops
  cases hsigned : s.render song setup loops false with
  | error fault =>
    rw [hsigned] at hunsigned
    rw [hunsigned] at hwav
    exact ⟨hunsigned, hwav⟩
  | ok pcm =>
    rw [hsigned] at hunsigned
    rw [hunsigned] at hwav
    refine ⟨hunsigned, _, hwav, rfl, fun hsize => ?_⟩
    have hrate := rate_le_of_render hsigned
    have hcount : setup.outputs.count ≤ 4 := by cases setup.outputs <;> decide
    have hspan : Word.span 4 = 2 ^ 32 := by decide
    have hbyteRate : setup.rate * setup.outputs.count ≤ 200000 * 4 := Nat.mul_le_mul hrate hcount
    refine Wav.read?_encode (by omega) (by omega) ?_
    rw [toUnsigned, Array.size_map]
    omega

end Session

end Chiptune
