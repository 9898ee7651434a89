import Mathlib
import Chiptune.Proofs.Rows
import Chiptune.Proofs.Writes

/-!
# Loops of a write that goes on

A write that goes on from where the stream is caps the loops of the frames that are yet to be made.
Those that were made ahead of the reader, under no cap, stay in the buffer and are written too, and
their loops count.

* `Sequencer.loops_run_of_end`: with how many loops a capped song ends.
* `handedOut`, `reads_eq_handedOut`: the frames that some reads have handed out.
* `loops_after_write`: **with how many loops a write ends**, and when these keep to the cap.
* `gallop_passes_cap`: a write that may take no loop, but takes those made ahead.
-/

namespace Chiptune

namespace Sequencer

variable {looping : Bool} {s s' : Sequencer} {p : Progress} {o : Option ℕ} {limit : ℕ}

/-- A song takes one loop at a time, and only if it may. -/
theorem Move.loops (h : Move looping s p o) :
    p.loops = s.progress.loops ∨
      p.loops = s.progress.loops + 1 ∧ s.rowProgress.mayLoop looping = true := by
  cases h with
  | stay | count => exact Or.inl rfl
  | finish _ _ _ hend => exact Or.inl (Progress.loops_turn_of_ends hend)
  | turn _ _ _ hgo =>
    obtain ⟨-, hturn⟩ | ⟨_, _, hmay, hturn⟩ := Progress.turn_cases hgo <;> rw [hturn]
    · exact Or.inl rfl
    · exact Or.inr ⟨rfl, hmay⟩

/-- Loops are never taken back. -/
theorem loops_le_run (flags : List Bool) (s : Sequencer) :
    s.progress.loops ≤ (run flags s).2.progress.loops := by
  refine run_induction (P := fun q => s.progress.loops ≤ q.progress.loops) ?_ le_rfl
  intro looping q f q' hf hq
  rcases hf.move.loops with h | ⟨h, -⟩ <;> omega

theorem loops_run_mono (looping : Bool) {n m : ℕ} (h : n ≤ m) (s : Sequencer) :
    (run (List.replicate n looping) s).2.progress.loops ≤
      (run (List.replicate m looping) s).2.progress.loops := by
  obtain ⟨k, rfl⟩ := Nat.exists_eq_add_of_le h
  rw [List.replicate_add, run_append]
  exact loops_le_run _ _

/-- A song that has taken all the loops it may takes no more. -/
theorem loops_run_of_le (hlimit : s.progress.loopLimit = some limit)
    (hspent : limit ≤ s.progress.loops) (flags : List Bool) :
    (run flags s).2.progress.loops = s.progress.loops := by
  refine (run_induction (P := fun q => q.progress.loopLimit = some limit ∧
    q.progress.loops = s.progress.loops) ?_ ⟨hlimit, rfl⟩).2
  rintro looping q f q' hf ⟨hq, hloops⟩
  refine ⟨(loopLimit_eq_of_reset_eq hf.reset).trans hq, ?_⟩
  rcases hf.move.loops with h | ⟨-, hmay⟩
  · exact h.trans hloops
  · have hless : q.progress.loops < limit :=
      ((Progress.mayLoop_iff (p := q.rowProgress) hq).1 hmay).2
    omega

/-- **A capped song ends with the loops that its cap allows**, or with those that it had taken before
if these are more. -/
theorem loops_run_of_end (hlimit : s.progress.loopLimit = some limit) (hopen : s.endFrame = none)
    {n : ℕ} (hend : (run (List.replicate n true) s).2.endFrame ≠ none) :
    (run (List.replicate n true) s).2.progress.loops = max limit s.progress.loops := by
  rcases Nat.le_total s.progress.loops limit with hle | hge
  · have hlooped : s.Looped limit := ⟨hlimit, hle, fun he => absurd hopen he⟩
    rw [(hlooped.run n).all hend, Nat.max_eq_left hle]
  · rw [loops_run_of_le hlimit hge, Nat.max_eq_right hge]

/-- As many frames are made under the first flags as there are among all. -/
theorem run_take_of_made {flags : List Bool} (h : (run flags s).1.length = flags.length) (k : ℕ) :
    (run (flags.take k) s).1 = (run flags s).1.take k := by
  have hrun := run_append (flags.take k) (flags.drop k) s
  rw [List.take_append_drop] at hrun
  have hframes := congrArg Prod.fst hrun
  have hlen := congrArg List.length hframes
  have htake := length_run (flags.take k) s
  have hdrop := length_run (flags.drop k) (run (flags.take k) s).2
  simp only [List.length_append, List.length_take, List.length_drop, h] at hlen htake hdrop
  rcases Nat.le_total k flags.length with hk | hk
  · rw [hframes, List.take_left']
    omega
  · rw [List.take_of_length_le hk, List.take_of_length_le (h.trans_le hk)]

end Sequencer

namespace Stream

variable {s s₀ : Stream} {score : Score} {index : ℕ} {setup : Setup} {unsigned : Bool} {sink : Sink}
  {w : Written}

/-! ## The frames that reads hand out -/

/-- The loop flags of the frames that some reads make, one for each frame. -/
def frameFlags : List (ℕ × Bool) → Stream → List Bool
  | [], _ => []
  | (ms, looping) :: rs, s =>
    let s' := (s.answer ms looping).2
    List.replicate (s'.sequencer.frames - s.sequencer.frames) looping ++ frameFlags rs s'

/-- The frames that some reads of a fresh stream have handed out, and the song as it was after the
last of them. -/
def handedOut (s : Stream) (rs : List (ℕ × Bool)) : List Frame × Sequencer :=
  s.sequencer.run ((frameFlags rs s).take ((s.reads rs).2.consumed / s.frameSize))

theorem served_frameFlags (h : s.Steady) (rs : List (ℕ × Bool)) :
    Served (frameFlags rs s) s (s.reads rs).1 (s.reads rs).2 := by
  induction rs generalizing s with
  | nil => exact .refl s
  | cons r rs ih =>
    obtain ⟨k, hserved, hsteady⟩ := served_answer h r.1 r.2
    have hk : (s.answer r.1 r.2).2.sequencer.frames - s.sequencer.frames = k := by
      rw [hserved.sequencer, Sequencer.frames_run, hserved.made, List.length_replicate,
        Nat.add_sub_cancel_left]
    have hflags : frameFlags (r :: rs) s =
        List.replicate k r.2 ++ frameFlags rs (s.answer r.1 r.2).2 := by
      rw [← hk]
      rfl
    rw [hflags]
    exact hserved.trans (ih hsteady)

theorem frameFlags_eq_replicate {looping : Bool} {rs : List (ℕ × Bool)}
    (hrs : ∀ r ∈ rs, r.2 = looping) (s : Stream) :
    ∃ n, frameFlags rs s = List.replicate n looping := by
  induction rs generalizing s with
  | nil => exact ⟨0, rfl⟩
  | cons r rs ih =>
    obtain ⟨n, hn⟩ := ih (fun r' hr' => hrs r' (by simp [hr'])) (s.answer r.1 r.2).2
    refine ⟨(s.answer r.1 r.2).2.sequencer.frames - s.sequencer.frames + n, ?_⟩
    rw [List.replicate_add, ← hn, ← hrs r (by simp)]
    rfl

/-- What reads of a fresh stream hand out are the bytes of those frames. -/
theorem reads_eq_handedOut (h : s.Steady) (hempty : s.pending = #[]) (hzero : s.consumed = 0)
    (rs : List (ℕ × Bool)) : (s.reads rs).1 = Frame.pcm (s.handedOut rs).1 := by
  have hserved := served_frameFlags h rs
  have hbytes := hserved.bytes
  rw [hempty, List.nil_append] at hbytes
  have hconsumed := hserved.consumed
  rw [hzero, Nat.zero_add] at hconsumed
  have hwhole := (h.reads rs).1.whole
  rw [frameSize_eq_of_reset_eq hserved.reset_eq] at hwhole
  rw [handedOut, Sequencer.run_take_of_made hserved.made]
  refine (Frame.pcm_cut (Sequencer.size_of_mem_run _ s.sequencer) hbytes ?_).1
  rw [← hconsumed]
  exact (Nat.div_mul_cancel hwhole).symm

/-- The loops of the frames handed out are among those that the song has taken. -/
theorem loops_handedOut_le (h : s.Steady) (rs : List (ℕ × Bool)) :
    (s.handedOut rs).2.progress.loops ≤ (s.reads rs).2.loops := by
  set k := (s.reads rs).2.consumed / s.frameSize with hk
  have hrun := Sequencer.run_append ((frameFlags rs s).take k) ((frameFlags rs s).drop k) s.sequencer
  rw [List.take_append_drop] at hrun
  rw [Stream.loops, (served_frameFlags h rs).sequencer, hrun]
  exact Sequencer.loops_le_run _ _

/-! ## Writes that go on -/

/-- A write that nothing kept from it has come to the end. -/
theorem atEnd_of_drain (h : s.drain unsigned sink = some w) (hok : w.fault = none) :
    w.stream.atEnd = true := by
  refine drain.partial_correctness unsigned
    (fun _ _ w => w.fault = none → w.stream.atEnd = true) ?_ sink s w h hok
  -- a round without a fault finds the end, or reads once more and goes on
  intro drain ih sink s w h hok
  split at h
  · rename_i hend
    obtain rfl := Option.some.inj h
    exact hend
  split at h
  · obtain rfl := Option.some.inj h
    cases hok
  · split at h
    · obtain rfl := Option.some.inj h
      cases hok
    · obtain ⟨rest, hrest, hw⟩ := Option.bind_eq_some_iff.1 h
      obtain rfl := Option.some.inj hw
      exact ih _ _ rest hrest hok

/-- **The loops of a write that goes on.** If the end was known it stays where it was, and no loop
comes any more. -/
theorem Ready.loops_write (h : Ready s₀ s) {loops : ℕ} (hloops : loops ≤ 100)
    (hok : (s.write loops false unsigned sink).fault = none) :
    (s.write loops false unsigned sink).stream.atEnd = true ∧
      (s.write loops false unsigned sink).stream.loops =
        if s.endBytes.isSome then s.loops else max loops s.loops := by
  obtain ⟨w, hw⟩ := Option.isSome_iff_exists.1 (h.drain_isSome loops unsigned sink)
  rw [write_of_drain hloops false hw] at hok ⊢
  have hend : w.stream.atEnd = true := atEnd_of_drain hw hok
  refine ⟨hend, ?_⟩
  -- a write is a number of reads, all of which loop
  obtain ⟨n, hn⟩ := drain_reads hw
  have hserved := served_frameFlags (h.steady.limited (some loops))
    (List.replicate n (longestRead, true))
  have hflag : ∀ r ∈ List.replicate n (longestRead, true), r.2 = true :=
    fun r hr => congrArg Prod.snd (List.eq_of_mem_replicate hr)
  obtain ⟨m, hm⟩ := frameFlags_eq_replicate hflag (s.limited (some loops))
  rw [← hn, hm] at hserved
  have hknown : w.stream.sequencer.endFrame ≠ none := by
    intro hnone
    simp [atEnd, Stream.endBytes, hnone] at hend
  change w.stream.sequencer.progress.loops = _
  rw [hserved.sequencer] at hknown ⊢
  cases he : s.sequencer.endFrame with
  | none =>
    rw [Stream.endBytes, he]
    have hlimit : (s.limited (some loops)).sequencer.progress.loopLimit = some loops := rfl
    exact Sequencer.loops_run_of_end hlimit he hknown
  | some e =>
    have hstays := (Sequencer.progress_run_of_end
      (s := (s.limited (some loops)).sequencer) (he ▸ Option.some_ne_none e)
      (List.replicate m true)).1
    rw [Stream.endBytes, he, hstays]
    rfl

/-- A receiver that takes everything keeps nothing from a write. -/
theorem Ready.fault_write (h : Ready s₀ s) {loops : ℕ} (hloops : loops ≤ 100) (unsigned : Bool)
    (hsink : sink.room = none) : (s.write loops false unsigned sink).fault = none := by
  have hsteady := h.steady.limited (some loops)
  obtain ⟨k, hk⟩ := Sequencer.exists_endsAfter hsteady.song (show _ = some loops from rfl) true
  obtain ⟨w, hw, hspec⟩ := drain_spec hsteady unsigned sink hk
  rw [write_of_drain hloops false hw]
  exact (hspec hsink).fault

theorem Ready.reads (h : Ready s₀ s) (rs : List (ℕ × Bool)) : Ready s₀ (s.reads rs).2 :=
  ⟨(h.steady.reads rs).1, (h.steady.reads rs).2.trans h.reset, h.fresh, h.unlimited⟩

/-- The first read after a reset makes frames for the whole buffer, of which it hands out those that
it asks for. -/
theorem loops_of_first_read (h : s.Steady) (hprimed : s.primed = false) (hzero : s.consumed = 0)
    (hopen : s.atEnd = false) {ms : ℕ} (hms : 0 < ms ∧ ms ≤ longestRead) (looping : Bool) :
    (s.reads [(ms, looping)]).2.loops = (s.sequencer.run
        (List.replicate ((s.capacity - s.pending.size) / s.frameSize) looping)).2.progress.loops ∧
      (s.handedOut [(ms, looping)]).2.progress.loops ≤
        (s.sequencer.run (List.replicate (s.wanted ms / s.frameSize) looping)).2.progress.loops := by
  have hreads : s.reads [(ms, looping)] = ((s.answer ms looping).1, (s.answer ms looping).2) :=
    congrArg (·, (s.answer ms looping).2) (List.append_nil _)
  have hread := read_of_wanted hopen hms looping
  constructor
  · rw [hreads, answer, hread, toppedUp, isLow, hprimed, ← (renderInto_eq _ _ _ s.pending).1]
    rfl
  · have hfew : (s.reads [(ms, looping)]).2.consumed ≤ s.wanted ms := by
      rw [(served_frameFlags h _).consumed, hzero, Nat.zero_add, hreads, answer, hread]
      dsimp only
      rw [Array.length_toList, size_take]
      exact Nat.min_le_left _ _
    obtain ⟨n, hn⟩ := frameFlags_eq_replicate (List.forall_mem_singleton.2 rfl) s
    rw [handedOut, hn, List.take_replicate]
    exact Sequencer.loops_run_mono looping
      ((Nat.min_le_left _ n).trans (Nat.div_le_div_right hfew)) s.sequencer

/-- **With how many loops a write ends.** Take a stream that was used in any way and reset, and any
reads of it; they have handed out the first of the frames that were made. A write that goes on from
there, and that nothing keeps from it, ends with as many loops as its cap allows, or as were taken in
the frames made before if these are more; if the end was known already, just with those. So it keeps
to its cap, loops that were handed out before it aside, exactly if the frames made ahead of the reader
do. -/
theorem loops_after_write (h₀ : start score index setup = .ok s₀) (requests : List Request)
    (rs : List (ℕ × Bool)) {loops : ℕ} (hloops : loops ≤ 100) (unsigned : Bool) (sink : Sink) :
    let s := (requests.foldl after s₀).reset
    let t := (s.reads rs).2
    let heard := (s.handedOut rs).2.progress.loops
    let w := t.write loops false unsigned sink
    w.fault = none →
      (s.reads rs).1 = Frame.pcm (s.handedOut rs).1 ∧ heard ≤ t.loops ∧
      w.stream.atEnd = true ∧
      w.stream.loops = (if t.endBytes.isSome then t.loops else max loops t.loops) ∧
      (w.stream.loops ≤ max loops heard ↔ t.loops ≤ max loops heard) := by
  obtain ⟨hready, song, -, hs₀⟩ := start_eq_ok h₀
  rw [show (requests.foldl after s₀).reset = s₀ from (hready.foldl_after requests).reset]
  intro s t heard w hok
  obtain ⟨hend, hleft⟩ := (hready.reads rs).loops_write hloops hok
  change w.stream.loops = if t.endBytes.isSome then t.loops else max loops t.loops at hleft
  refine ⟨reads_eq_handedOut hready.fresh (by rw [hs₀]) (by rw [hs₀]) rs,
    loops_handedOut_le hready.fresh rs, hend, hleft, ?_⟩
  rw [hleft]
  split <;> omega

/-- A song of two silent rows, ten frames each. -/
def gallop : Score :=
  { songs := #[⟨1, 2, 0, 0, 0, 200⟩] }

def galloping : Stream :=
  ⟨0, .atStart gallop ⟨1, 2, 0, 0, 0, 200⟩ { rate := 2000, allowFilter := false }, #[], 0, false⟩

theorem start_gallop : start gallop 0 { rate := 2000, allowFilter := false } = .ok galloping := rfl

theorem gallop_loops_after_write :
    start gallop 0 { rate := 2000, allowFilter := false } = .ok galloping ∧ 3 ≤ 100 ∧
      let s := ([Request.read 3 false].foldl after galloping).reset
      let t := (s.reads [(1, true)]).2
      let w := t.write 3 false true .endless
      w.fault = none ∧ w.stream.atEnd = true ∧ t.loops ≤ w.stream.loops := by
  have hready : Ready galloping (([Request.read 3 false].foldl after galloping).reset.reads
      [(1, true)]).2 :=
    (((start_eq_ok start_gallop).1.foldl_after [.read 3 false]).rewound).reads [(1, true)]
  have hok := hready.fault_write (show 3 ≤ 100 by decide) true (show Sink.endless.room = none from rfl)
  obtain ⟨-, -, hend, hleft, -⟩ :=
    loops_after_write start_gallop [.read 3 false] [(1, true)] (by decide) true .endless hok
  refine ⟨start_gallop, by decide, hok, hend, ?_⟩
  rw [hleft]
  split <;> omega

/-- One millisecond is read, of two frames without a loop, and then the rest is written with no loop
allowed. But the loops made ahead are written. -/
theorem gallop_passes_cap :
    start gallop 0 { rate := 2000, allowFilter := false } = .ok galloping ∧
      let t := (galloping.reads [(1, true)]).2
      let w := t.write 0 false false .endless
      w.fault = none ∧ (galloping.handedOut [(1, true)]).2.progress.loops = 0 ∧
        ¬ w.stream.loops ≤ max 0 (galloping.handedOut [(1, true)]).2.progress.loops := by
  have hready := (start_eq_ok start_gallop).1
  have hreads := hready.reads [(1, true)]
  have hok := hreads.fault_write (show 0 ≤ 100 by decide) false (show Sink.endless.room = none from rfl)
  obtain ⟨htaken, hheard⟩ := loops_of_first_read hready.steady (show galloping.primed = false from rfl)
    (show galloping.consumed = 0 from rfl) (by decide +kernel)
    (show 0 < 1 ∧ 1 ≤ longestRead by decide) true
  -- a loop is taken in the first eleven frames, but not in the two that are handed out
  have hone : (galloping.sequencer.run (List.replicate 11 true)).2.progress.loops = 1 := by
    decide +kernel
  have hnone : (galloping.sequencer.run (List.replicate 2 true)).2.progress.loops = 0 := by
    decide +kernel
  have hmade : 11 ≤ (galloping.capacity - galloping.pending.size) / galloping.frameSize := by decide
  have hasked : galloping.wanted 1 / galloping.frameSize = 2 := by decide
  have hahead := Sequencer.loops_run_mono true hmade galloping.sequencer
  rw [hasked, hnone] at hheard
  rw [hone, ← htaken] at hahead
  refine ⟨start_gallop, hok, Nat.le_zero.1 hheard, ?_⟩
  rw [(hreads.loops_write (by decide) hok).2, Nat.le_zero.1 hheard]
  split <;> omega

end Stream

end Chiptune
