import Mathlib
import Chiptune.Proofs.Finish
import Chiptune.Proofs.Requests

/-!
# A song is written whole

A write reads on until the end. Since its loops are limited the end comes, and since every read hands
out something the end is reached.

* `drain_spec`: **a write comes to its end**, and a receiver that takes everything gets all that was
  left.
* `whole_song_written`: a write from the start gives the bytes of a song that plays alone, with all
  of its loops.
-/

namespace Chiptune.Stream

open Sequencer (EndsAfter)

variable {s s' s₀ : Stream} {score : Score} {index : ℕ} {setup : Setup} {unsigned : Bool}
  {w : Written} {i j k : ℕ}

/-- The bytes that are sent for signed ones. -/
def sent (unsigned : Bool) (data : List UInt8) : List UInt8 :=
  if unsigned then data.map (· + 128) else data

theorem sent_append (unsigned : Bool) (xs ys : List UInt8) :
    sent unsigned (xs ++ ys) = sent unsigned xs ++ sent unsigned ys := by
  cases unsigned
  · rfl
  · exact List.map_append

theorem length_sent (unsigned : Bool) (data : List UInt8) :
    (sent unsigned data).length = data.length := by
  cases unsigned
  · rfl
  · exact List.length_map _

theorem sent_toList (unsigned : Bool) (data : Array UInt8) :
    (if unsigned then toUnsigned data else data).toList = sent unsigned data.toList := by
  cases unsigned
  · rfl
  · exact Array.toList_map

theorem Written.toList_pcm (w : Written) : w.pcm.toList = w.chunks.flatMap Array.toList := by
  have hfold (chunks : List (Array UInt8)) (out : Array UInt8) :
      (chunks.foldl (· ++ ·) out).toList = out.toList ++ chunks.flatMap Array.toList := by
    induction chunks generalizing out with
    | nil => exact (List.append_nil _).symm
    | cons data chunks ih =>
      rw [List.foldl_cons, ih, Array.toList_append, List.append_assoc, List.flatMap_cons]
  exact hfold w.chunks #[]

/-! ## One read of a write -/

/-- A stream at its end has nothing left, and its song neither. -/
theorem Steady.of_atEnd (h : s.Steady) (hend : s.atEnd = true) :
    s.pending = #[] ∧ s.sequencer.isFinished = true := by
  have he : s.endBytes = some s.consumed := by simpa [atEnd] using hend
  have hle := h.le_endBytes he
  obtain ⟨n, hn, hbytes⟩ := Option.map_eq_some_iff.1 he
  have hsame : s.sequencer.frames * s.frameSize = n * s.frameSize := by
    have := h.balance
    omega
  refine ⟨Array.eq_empty_of_size_eq_zero (by omega), ?_⟩
  rw [Sequencer.isFinished, hn, Nat.eq_of_mul_eq_mul_right s.frameSize_pos hsame]
  simp

/-- Before the end a read hands out some of the bytes that are left. -/
theorem exists_read (h : s.Steady) (hopen : s.atEnd = false) (hk : s.sequencer.EndsAfter true k) :
    ∃ data s' j i, s.read longestRead true = .ok (data, s') ∧ s'.Steady ∧
      Served (List.replicate j true) s data.toList s' ∧ k = j + i ∧ s'.sequencer.EndsAfter true i ∧
      s'.pending.size + i * s'.frameSize < s.pending.size + k * s.frameSize := by
  have hms : 0 < longestRead ∧ longestRead ≤ longestRead := by decide
  obtain ⟨data, s', hread, hsome, -⟩ := read_spec h hopen hms true
  obtain ⟨j, hserved, hsteady⟩ := served_answer h longestRead true
  rw [answer, hread] at hserved hsteady
  have hj : (s.sequencer.run (List.replicate j true)).1.length = j := by
    rw [hserved.made, List.length_replicate]
  obtain ⟨i, rfl, hi⟩ := hk.split hj
  rw [← hserved.sequencer] at hi
  refine ⟨data, s', j, i, hread, hsteady, hserved, rfl, hi, ?_⟩
  have hlen := congrArg List.length hserved.bytes
  simp only [List.length_append, Sequencer.length_pcm_run, Array.length_toList, hj] at hlen
  change _ = s.pending.size + j * s.frameSize at hlen
  rw [frameSize_eq_of_reset_eq hserved.reset_eq, Nat.add_mul]
  omega

/-! ## All reads of a write -/

/-- A write that gave all that was left: what was buffered, and the frames up to the end. -/
structure Complete (unsigned : Bool) (k : ℕ) (s : Stream) (w : Written) : Prop where
  fault : w.fault = none
  steady : w.stream.Steady
  atEnd : w.stream.atEnd = true
  sequencer : w.stream.sequencer = (s.sequencer.run (List.replicate k true)).2
  bytes : w.chunks.flatMap Array.toList = sent unsigned (s.pending.toList ++
    Frame.pcm (s.sequencer.run (List.replicate k true)).1)

theorem complete_of_atEnd (h : s.Steady) (hend : s.atEnd = true) (unsigned : Bool) (k : ℕ) :
    Complete unsigned k s ⟨[], none, s⟩ := by
  obtain ⟨hempty, hfinished⟩ := h.of_atEnd hend
  have hrun := Sequencer.run_of_finished hfinished (List.replicate k true)
  refine ⟨rfl, h, hend, by rw [hrun], ?_⟩
  rw [hrun, hempty]
  cases unsigned <;> rfl

/-- One more chunk in front of a complete write. -/
theorem Complete.cons {data : Array UInt8} (hw : Complete unsigned i s' w)
    (hserved : Served (List.replicate j true) s data.toList s') :
    Complete unsigned (j + i) s
      { w with chunks := (if unsigned then toUnsigned data else data) :: w.chunks } := by
  have hrun := Sequencer.run_append (List.replicate j true) (List.replicate i true) s.sequencer
  rw [← List.replicate_add, ← hserved.sequencer] at hrun
  refine ⟨hw.fault, hw.steady, hw.atEnd, ?_, ?_⟩
  · rw [hrun]
    exact hw.sequencer
  · rw [hrun, List.flatMap_cons, hw.bytes, sent_toList, ← sent_append, Frame.pcm_append,
      ← List.append_assoc, hserved.bytes, List.append_assoc]

/-- **A write comes to its end.** A receiver that takes everything gets all that was left. -/
theorem drain_spec (h : s.Steady) (unsigned : Bool) (sink : Sink)
    (hk : s.sequencer.EndsAfter true k) :
    ∃ w, s.drain unsigned sink = some w ∧ (sink.room = none → Complete unsigned k s w) := by
  -- the bytes that are left grow fewer with every read
  induction hn : s.pending.size + k * s.frameSize using Nat.strong_induction_on
    generalizing s k sink with
  | _ n ih =>
  cases hopen : s.atEnd with
  | true => exact ⟨_, by rw [drain, if_pos hopen], fun _ => complete_of_atEnd h hopen unsigned k⟩
  | false =>
    obtain ⟨data, s', j, i, hread, hsteady, hserved, rfl, hi, hless⟩ := exists_read h hopen hk
    rw [drain, if_neg (by simp [hopen]), hread]
    dsimp only
    by_cases hfull : sink.isFull = true
    · refine ⟨_, if_pos hfull, fun hroom => ?_⟩
      simp [Sink.isFull, hroom] at hfull
    · obtain ⟨w, hw, hspec⟩ := ih _ (hn ▸ hless) hsteady sink.fed hi rfl
      refine ⟨_, by rw [if_neg hfull, hw]; rfl, fun hroom => ?_⟩
      exact (hspec (by rw [Sink.fed, hroom]; rfl)).cons hserved

/-- With nothing buffered before, a complete write gives the bytes of the frames. -/
theorem Complete.pcm (hw : Complete unsigned k s w) (hempty : s.pending = #[]) :
    w.pcm =
      if unsigned then toUnsigned (Frame.pcm (s.sequencer.run (List.replicate k true)).1).toArray
      else (Frame.pcm (s.sequencer.run (List.replicate k true)).1).toArray := by
  refine Array.toList_inj.1 ?_
  rw [Written.toList_pcm, hw.bytes, sent_toList, hempty]
  rfl

/-- A complete write comes to the end that is as far away as it has bytes. -/
theorem Complete.endBytes (hw : Complete unsigned k s w) (h : s.Steady)
    (hk : s.sequencer.EndsAfter true k) : w.stream.endBytes = some (s.consumed + w.pcm.size) := by
  have hsize : w.pcm.size = s.pending.size + k * s.frameSize := by
    rw [← Array.length_toList, Written.toList_pcm, hw.bytes, length_sent, List.length_append,
      Sequencer.length_pcm_run, hk.all]
    rfl
  have hframe : w.stream.frameSize = s.frameSize := by
    rw [frameSize, hw.sequencer, Sequencer.setup_eq_of_reset_eq (Sequencer.reset_run _ _)]
    rfl
  have hended : w.stream.sequencer.isFinished = true := hw.sequencer ▸ hk.ended
  rw [hw.steady.endBytes_of_finished hended, hw.steady.balance, hframe, hw.sequencer,
    Sequencer.frames_run, hk.all, Nat.add_mul, ← h.balance, hsize, Nat.add_assoc]

/-! ## Writes -/

/-- A write takes its limit off when it is done. -/
theorem write_of_drain {loops : ℕ} (hloops : loops ≤ mostLoops) (fromStart : Bool) {sink : Sink}
    (hw : ((if fromStart then s.reset else s).limited (some loops)).drain unsigned sink = some w) :
    s.write loops fromStart unsigned sink = { w with stream := w.stream.limited none } := by
  rw [write, if_neg (Nat.not_lt.2 hloops)]
  dsimp only
  rw [hw]
  rfl

/-- **No write goes on forever**, wherever the stream is and however the receiver behaves. -/
theorem Ready.drain_isSome (h : Ready s₀ s) (limit : ℕ) (unsigned : Bool) (sink : Sink) :
    ((s.limited (some limit)).drain unsigned sink).isSome := by
  have hsteady := h.steady.limited (some limit)
  obtain ⟨k, hk⟩ := Sequencer.exists_endsAfter hsteady.song (show _ = some limit from rfl) true
  obtain ⟨w, hw, -⟩ := drain_spec hsteady unsigned sink hk
  rw [hw]
  rfl

/-- **A song is written whole.** However the stream was used before, a write from the start to a
receiver that takes everything comes to its end. It gives the bytes of the frames that the song makes
under the loop limit, played alone until no frame comes; it plays at most so many rows; it has taken
all loops; and the stream is at its end, which lies at the number of bytes written. -/
theorem whole_song_written (h₀ : start score index setup = .ok s₀) (requests : List Request)
    {loops : ℕ} (hloops : loops ≤ 100) (unsigned : Bool) {sink : Sink}
    (hsink : sink.room = none) :
    let s := requests.foldl after s₀
    let w := s.write loops true unsigned sink
    let song := s₀.sequencer.song
    let q := s₀.sequencer.setLoopLimit (some loops)
    ((s.reset.limited (some loops)).drain unsigned sink).isSome ∧
    ∃ n, let frames := (q.run (List.replicate n true)).1
      let last := (q.run (List.replicate n true)).2
      let signed := (Frame.pcm frames).toArray
      frames.length = n ∧ last.renderFrame true = none ∧
      q.rows (List.replicate n true) ≤ (loops + 1) * ((song.last.toNat + 1) * max 1 song.rows.toNat) ∧
      w.whole = .ok (if unsigned then toUnsigned signed else signed) ∧
      w.stream.sequencer = last.setLoopLimit none ∧ w.stream.loops = loops ∧
      w.stream.atEnd = true ∧ w.stream.endBytes = some w.pcm.size := by
  intro s w song q
  obtain ⟨hready, song', -, hs₀⟩ := start_eq_ok h₀
  have hs : Ready s₀ s := hready.foldl_after requests
  refine ⟨hs.rewound.drain_isSome loops unsigned sink, ?_⟩
  -- the write begins with the stream of the start, whatever was asked of it before
  have ht : s.reset.limited (some loops) = s₀.limited (some loops) := by rw [hs.reset]
  have hsteady : (s₀.limited (some loops)).Steady := hready.steady.limited _
  have hopen : s₀.sequencer.endFrame = none := by rw [hs₀]; rfl
  have hplay : s₀.sequencer.progress = .start s₀.sequencer.song := by rw [hs₀]; rfl
  have hempty : s₀.pending = #[] := by rw [hs₀]
  have hconsumed : s₀.consumed = 0 := by rw [hs₀]
  obtain ⟨n, hn, htaken, hrows⟩ := Sequencer.whole_song (s := q) hsteady.song hopen
    (congrArg (fun p : Progress => { p with loopLimit := some loops }) hplay)
  obtain ⟨v, hv, hspec⟩ := drain_spec hsteady unsigned sink hn
  have hdone := hspec hsink
  have hw : w = { v with stream := v.stream.limited none } :=
    write_of_drain hloops true (by rw [if_pos rfl, ht]; exact hv)
  refine ⟨n, hn.all, (Sequencer.renderFrame_eq_none_iff true _).2 hn.ended, hrows, ?_⟩
  rw [hw]
  refine ⟨?_, congrArg (·.setLoopLimit none) hdone.sequencer, ?_, hdone.atEnd, ?_⟩
  · rw [Written.whole, hdone.fault]
    exact congrArg Except.ok (hdone.pcm hempty)
  · change v.stream.sequencer.progress.loops = loops
    rw [hdone.sequencer]
    exact htaken
  · have hend := hdone.endBytes hsteady hn
    change _ = some (s₀.consumed + _) at hend
    rwa [hconsumed, Nat.zero_add] at hend

/-- A song that starts past its last step, where the second row leads back to the first. -/
def wheel : Score :=
  { songs := #[⟨1, 2, 1, 0, 0, 200⟩]
    parts := Array.replicate 8 ⟨0, 0, 0⟩
    notes := #[⟨0, 0, 0, 0⟩, ⟨0, 0, 0x0B, 0⟩] }

theorem wheel_written :
    ∃ s₀, start wheel 0 { rate := 2000 } = .ok s₀ ∧ 2 ≤ 100 ∧ Sink.endless.room = none ∧
      let w := ([Request.read 30 true].foldl after s₀).write 2 true false .endless
      w.stream.loops = 2 ∧ w.stream.atEnd = true ∧ w.stream.endBytes = some w.pcm.size := by
  obtain ⟨s₀, h₀⟩ : ∃ s₀, start wheel 0 { rate := 2000 } = .ok s₀ := ⟨_, rfl⟩
  obtain ⟨-, _, -, -, -, -, -, hloops, hend⟩ := whole_song_written h₀ [.read 30 true]
    (show 2 ≤ 100 by decide) false (show Sink.endless.room = none from rfl)
  exact ⟨s₀, h₀, by decide, rfl, hloops, hend⟩

end Chiptune.Stream
