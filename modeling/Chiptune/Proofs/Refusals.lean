import Mathlib
import Chiptune.Proofs.Ending
import Chiptune.Proofs.LoopCap

/-!
# A refused chunk is lost

A receiver may take some chunks and refuse the next. The write is over then, and the refused chunk has
left the stream all the same, for it was read before it was offered. Nothing else is lost: what the
receiver took is the beginning of what is written to one that takes everything, and the stream goes on
behind the refused chunk.

* `drain_refused`: a refused write, told by the write to a receiver that takes everything.
* `chunks_of_drain`: **every chunk but the last is a second long**, and none is empty.
* `take_chunks`: the first chunks are what as many reads hand out.
* `refused_chunk_lost`: all of this for every stream in use.
-/

namespace Chiptune.Stream

variable {s s' s₀ : Stream} {score : Score} {index : ℕ} {setup : Setup} {unsigned : Bool} {sink : Sink}
  {w : Written} {data : Array UInt8}

/-! ## Reads of a second -/

/-- The reads of so many seconds. -/
def seconds (n : ℕ) : List (ℕ × Bool) :=
  List.replicate n (longestRead, true)

theorem wanted_longestRead (s : Stream) : s.wanted longestRead = s.secondSize := by
  have hceil : (s.sequencer.setup.rate * longestRead + 999) / 1000 = s.sequencer.setup.rate := by
    unfold longestRead
    omega
  rw [wanted, hceil, secondSize]

theorem secondSize_eq_of_reset_eq (h : s'.reset = s.reset) : s'.secondSize = s.secondSize := by
  change s'.reset.secondSize = s.reset.secondSize
  rw [h]

/-- An answered read has served the stream. -/
theorem served_of_read (h : s.Steady) {ms : ℕ} {looping : Bool}
    (hread : s.read ms looping = .ok (data, s')) :
    ∃ j, Served (List.replicate j looping) s data.toList s' ∧ s'.Steady := by
  obtain ⟨j, hserved⟩ := served_answer h ms looping
  rw [answer, hread] at hserved
  exact ⟨j, hserved⟩

/-- **A read of a second hands out a second**, or all that is left. -/
theorem read_second (h : s.Steady) (hopen : s.atEnd = false)
    (hread : s.read longestRead true = .ok (data, s')) :
    0 < data.size ∧ data.size ≤ s.secondSize ∧ (s'.atEnd = false → data.size = s.secondSize) := by
  have hms : 0 < longestRead ∧ longestRead ≤ longestRead := by decide
  obtain ⟨data', t, hread', hsome, hsize⟩ := read_spec h hopen hms true
  obtain ⟨rfl, rfl⟩ := Prod.mk.inj (Except.ok.inj (hread.symm.trans hread'))
  obtain ⟨_, hserved, -⟩ := served_of_read h hread
  have hconsumed : s'.consumed = s.consumed + data.size := hserved.consumed
  rw [wanted_longestRead] at hsize
  refine ⟨hsome, ?_, fun hopen' => ?_⟩
  · cases he : s'.endBytes with
    | none =>
      rw [he] at hsize
      exact hsize.le
    | some e =>
      rw [he] at hsize
      exact hsize.trans_le (Nat.min_le_left _ _)
  · cases he : s'.endBytes with
    | none =>
      rw [he] at hsize
      exact hsize
    | some e =>
      have hnot : e ≠ s'.consumed := by simpa [atEnd, he] using hopen'
      rw [he, Option.elim_some] at hsize
      omega

/-- At the end nothing is handed out any more. -/
theorem reads_of_atEnd (hend : s.atEnd = true) (rs : List (ℕ × Bool)) : s.reads rs = ([], s) := by
  induction rs with
  | nil => rfl
  | cons r rs ih =>
    have hanswer : s.answer r.1 r.2 = ([], s) := by rw [answer, read_of_atEnd hend]
    rw [reads, hanswer, ih]
    rfl

theorem reads_seconds_succ (hread : s.read longestRead true = .ok (data, s')) (n : ℕ) :
    s.reads (seconds (n + 1)) =
      (data.toList ++ (s'.reads (seconds n)).1, (s'.reads (seconds n)).2) := by
  rw [seconds, List.replicate_succ, reads, answer, hread]
  rfl

/-- Before the end a second is never refused. -/
theorem exists_read_second (hopen : s.atEnd = false) :
    ∃ data s', s.read longestRead true = .ok (data, s') :=
  ⟨_, _, read_of_wanted hopen (by decide) true⟩

/-! ## The chunks of a write -/

/-- A write to a receiver that refuses what comes after `k` chunks, which leaves `rest`, told by the
write to one that takes everything. -/
def Written.refused (w : Written) (k : ℕ) (refusal : String) (rest : Stream) : Written :=
  if k < w.chunks.length then ⟨w.chunks.take k, some (.sink refusal), rest⟩ else w

/-- **A refused write is the beginning of the whole one**, and one chunk more has left the stream. -/
theorem drain_refused (h : s.drain unsigned sink = some w) (hroom : sink.room = none) (k : ℕ)
    (refusal : String) : s.drain unsigned ⟨some k, refusal⟩ =
      some (w.refused k refusal (s.reads (seconds (k + 1))).2) := by
  refine drain.partial_correctness unsigned (fun sink s w => sink.room = none → ∀ k,
    s.drain unsigned ⟨some k, refusal⟩ = some (w.refused k refusal (s.reads (seconds (k + 1))).2))
    ?_ sink s w h hroom k
  -- a round of the whole write is one of the refused write, unless there is no room for it
  intro drain ih sink s w h hroom k
  rw [Stream.drain]
  split at h
  · rename_i hend
    obtain rfl := Option.some.inj h
    exact if_pos hend
  rename_i hopen
  rw [if_neg hopen]
  obtain ⟨data, s', hread⟩ := exists_read_second (Bool.eq_false_iff.2 hopen)
  rw [hread] at h ⊢
  simp only [Sink.isFull_of_endless hroom, Sink.fed_of_endless hroom, Bool.false_eq_true,
    if_false] at h
  obtain ⟨rest, hrest, hw⟩ := Option.bind_eq_some_iff.1 h
  obtain rfl := Option.some.inj hw
  rw [reads_seconds_succ hread]
  cases k with
  | zero => rfl
  | succ k =>
    have hgo := ih _ _ _ hrest hroom k
    have hroom' : (⟨some (k + 1), refusal⟩ : Sink).isFull = false := rfl
    have hfed' : (⟨some (k + 1), refusal⟩ : Sink).fed = ⟨some k, refusal⟩ := rfl
    simp only [hroom', hfed', hgo, Bool.false_eq_true, if_false]
    unfold Written.refused
    by_cases hk : k < rest.chunks.length
    · simp [hk]
    · simp [hk]

/-- **Every chunk but the last is a second long**, and none is empty. -/
theorem chunks_of_drain (h : s.drain unsigned sink = some w) (hs : s.Steady) :
    (∀ c ∈ w.chunks, 0 < c.size ∧ c.size ≤ s.secondSize) ∧
      ∀ c ∈ w.chunks.dropLast, c.size = s.secondSize := by
  refine drain.partial_correctness unsigned (fun _ s w => s.Steady →
    (s.atEnd = true → w.chunks = []) ∧ (∀ c ∈ w.chunks, 0 < c.size ∧ c.size ≤ s.secondSize) ∧
      ∀ c ∈ w.chunks.dropLast, c.size = s.secondSize) ?_ sink s w h hs |>.2
  intro drain ih sink s w h hs
  have hnothing : (∀ c ∈ ([] : List (Array UInt8)), 0 < c.size ∧ c.size ≤ s.secondSize) ∧
      ∀ c ∈ ([] : List (Array UInt8)).dropLast, c.size = s.secondSize := by simp
  split at h
  · obtain rfl := Option.some.inj h
    exact ⟨fun _ => rfl, hnothing⟩
  rename_i hopen
  refine ⟨fun hend => absurd hend hopen, ?_⟩
  obtain ⟨data, s', hread⟩ := exists_read_second (Bool.eq_false_iff.2 hopen)
  obtain ⟨_, hserved, hs'⟩ := served_of_read hs hread
  obtain ⟨hsome, hmost, hall⟩ := read_second hs (Bool.eq_false_iff.2 hopen) hread
  rw [hread] at h
  dsimp only at h
  split at h
  · obtain rfl := Option.some.inj h
    exact hnothing
  · obtain ⟨rest, hrest, hw⟩ := Option.bind_eq_some_iff.1 h
    obtain rfl := Option.some.inj hw
    obtain ⟨hlast, hchunks, hbut⟩ := ih _ _ _ hrest hs'
    have hsize : (if unsigned then toUnsigned data else data).size = data.size := by
      rw [← Array.length_toList, sent_toList, length_sent, Array.length_toList]
    have hsecond : s'.secondSize = s.secondSize := secondSize_eq_of_reset_eq hserved.reset_eq
    rw [hsecond] at hchunks hbut
    refine ⟨List.forall_mem_cons.2 ⟨by rw [hsize]; exact ⟨hsome, hmost⟩, hchunks⟩, ?_⟩
    -- the chunk is the last one, or more is left after it
    cases hrest' : rest.chunks with
    | nil => simp
    | cons c cs =>
      have hopen' : s'.atEnd = false := by
        rw [← Bool.not_eq_true]
        intro hend
        rw [hlast hend] at hrest'
        cases hrest'
      rw [hrest'] at hbut
      rw [List.dropLast_cons_cons]
      exact List.forall_mem_cons.2 ⟨hsize.trans (hall hopen'), hbut⟩

/-- **The first chunks are what as many reads hand out.** -/
theorem take_chunks (h : s.drain unsigned sink = some w) (hroom : sink.room = none) (k : ℕ) :
    (w.chunks.take k).flatMap Array.toList = sent unsigned (s.reads (seconds k)).1 := by
  refine drain.partial_correctness unsigned (fun sink s w => sink.room = none → ∀ k,
    (w.chunks.take k).flatMap Array.toList = sent unsigned (s.reads (seconds k)).1)
    ?_ sink s w h hroom k
  intro drain ih sink s w h hroom k
  have hempty : sent unsigned [] = [] := by cases unsigned <;> rfl
  split at h
  · rename_i hend
    obtain rfl := Option.some.inj h
    rw [reads_of_atEnd hend, hempty, List.take_nil]
    rfl
  rename_i hopen
  obtain ⟨data, s', hread⟩ := exists_read_second (Bool.eq_false_iff.2 hopen)
  rw [hread] at h
  simp only [Sink.isFull_of_endless hroom, Sink.fed_of_endless hroom, Bool.false_eq_true,
    if_false] at h
  obtain ⟨rest, hrest, hw⟩ := Option.bind_eq_some_iff.1 h
  obtain rfl := Option.some.inj hw
  cases k with
  | zero => exact hempty.symm
  | succ k =>
    rw [reads_seconds_succ hread, sent_append, ← ih _ _ _ hrest hroom k, List.take_succ_cons,
      List.flatMap_cons, sent_toList]

/-- Any reads serve the stream. -/
theorem exists_served_reads (h : s.Steady) (rs : List (ℕ × Bool)) :
    ∃ flags, Served flags s (s.reads rs).1 (s.reads rs).2 ∧ (s.reads rs).2.Steady := by
  obtain ⟨_, -, hserved, hsteady⟩ := served_reads h rs
  exact ⟨_, hserved, hsteady⟩

/-- **The next reads go on behind the refused chunk.** Their bytes follow those of the first reads: all
of them are bytes that were buffered before or frames made since, first under the limit, then without
it. -/
theorem reads_then_reads (h : s.Steady) (n : ℕ) (rs : List (ℕ × Bool)) :
    let u := (s.reads (seconds n)).2.limited none
    ∃ flags later, let made := s.sequencer.run flags
      let more := (made.2.setLoopLimit none).run later
      u.sequencer = made.2.setLoopLimit none ∧ (u.reads rs).2.sequencer = more.2 ∧
      u.consumed = s.consumed + (s.reads (seconds n)).1.length ∧
      (s.reads (seconds n)).1 ++ ((u.reads rs).1 ++ (u.reads rs).2.pending.toList) =
        s.pending.toList ++ Frame.pcm (made.1 ++ more.1) := by
  intro u
  obtain ⟨flags, hserved, hsteady⟩ := exists_served_reads h (seconds n)
  obtain ⟨later, hlater, -⟩ := exists_served_reads (hsteady.limited none) rs
  refine ⟨flags, later, ?_, ?_, hserved.consumed, ?_⟩
  · rw [← hserved.sequencer]
    rfl
  · rw [← hserved.sequencer]
    exact hlater.sequencer
  · calc (s.reads (seconds n)).1 ++ ((u.reads rs).1 ++ (u.reads rs).2.pending.toList)
        = (s.reads (seconds n)).1 ++ ((s.reads (seconds n)).2.pending.toList ++
            Frame.pcm (((s.reads (seconds n)).2.sequencer.setLoopLimit none).run later).1) :=
          congrArg _ hlater.bytes
      _ = _ := by
          rw [← List.append_assoc, hserved.bytes, List.append_assoc, hserved.sequencer,
            Frame.pcm_append]

/-- **A refused chunk is lost, and nothing else.** Take a stream that was used in any way, and write it,
from the start or from where it is, to a receiver that takes `k` chunks and refuses the next. The
write ends, with the receiver's refusal exactly if a receiver that takes everything gets more than `k`
chunks, and otherwise as that write does. What was taken are the first `k` chunks of the whole
output; they are a second long each, but for the last of the output, and none is empty. A refused
write leaves the stream as one more looping read of a second does, with the limit taken off. So any
later reads hand out what follows the refused chunk: the bytes buffered then, and those of the frames
that the song makes next. -/
theorem refused_chunk_lost (h₀ : start score index setup = .ok s₀) (requests : List Request)
    {loops : ℕ} (hloops : loops ≤ 100) (fromStart unsigned : Bool) (k : ℕ) (refusal : String) :
    let s := requests.foldl after s₀
    let t := (if fromStart then s.reset else s).limited (some loops)
    let whole := s.write loops fromStart unsigned .endless
    let w := s.write loops fromStart unsigned ⟨some k, refusal⟩
    let second := setup.rate * setup.frameSize
    (∀ sink, (t.drain unsigned sink).isSome) ∧
    (whole.fault = none ∧ whole.stream.atEnd = true) ∧
    (∀ c ∈ whole.chunks, 0 < c.size ∧ c.size ≤ second) ∧
    (∀ c ∈ whole.chunks.dropLast, c.size = second) ∧
    w.fault = (if k < whole.chunks.length then some (.sink refusal) else none) ∧
    w.chunks = whole.chunks.take k ∧ (whole.chunks.length ≤ k → w = whole) ∧
    (k < whole.chunks.length →
      w.stream = ((t.reads (List.replicate (k + 1) (1000, true))).2).limited none ∧
      ∀ rs, ∃ flags later, let made := t.sequencer.run flags
        let more := (made.2.setLoopLimit none).run later
        let gone := (whole.chunks.take (k + 1)).flatMap Array.toList
        w.stream.sequencer = made.2.setLoopLimit none ∧
        (w.stream.reads rs).2.sequencer = more.2 ∧ w.stream.consumed = t.consumed + gone.length ∧
        gone ++ sent unsigned ((w.stream.reads rs).1 ++ (w.stream.reads rs).2.pending.toList) =
          sent unsigned (t.pending.toList ++ Frame.pcm (made.1 ++ more.1))) := by
  intro s t whole w second
  obtain ⟨hready, song, -, hs₀⟩ := start_eq_ok h₀
  have hs : Ready s₀ s := hready.foldl_after requests
  have hbegin : Ready s₀ (if fromStart then s.reset else s) := by
    cases fromStart with
    | false => exact hs
    | true => exact hs.rewound
  have ht : t.Steady := hbegin.steady.limited _
  obtain ⟨n, hn⟩ := Sequencer.exists_endsAfter ht.song (show _ = some loops from rfl) true
  obtain ⟨v, hv, hspec⟩ := drain_spec ht unsigned .endless hn
  have hdone := hspec rfl
  have hwhole : whole = { v with stream := v.stream.limited none } :=
    write_of_drain hloops fromStart hv
  have hw : w = _ := write_of_drain hloops fromStart (drain_refused hv rfl k refusal)
  have hsecond : t.secondSize = second := by
    have hreset : (if fromStart then s.reset else s).reset = s₀.reset := by
      rw [hbegin.reset, hready.reset]
    have hsame : (if fromStart then s.reset else s).secondSize = s₀.secondSize :=
      secondSize_eq_of_reset_eq hreset
    change (if fromStart then s.reset else s).secondSize = second
    rw [hsame, hs₀]
    rfl
  have hsizes := chunks_of_drain hv ht
  rw [hsecond] at hsizes
  rw [hw, hwhole]
  refine ⟨hbegin.drain_isSome loops unsigned, ⟨hdone.fault, hdone.atEnd⟩, hsizes.1, hsizes.2, ?_⟩
  unfold Written.refused
  by_cases hk : k < v.chunks.length
  · rw [if_pos hk, if_pos hk]
    refine ⟨rfl, rfl, fun hle => absurd hk (Nat.not_lt.2 hle), fun _ => ⟨rfl, fun rs => ?_⟩⟩
    obtain ⟨flags, later, hmade, hmore, hconsumed, hbytes⟩ := reads_then_reads ht (k + 1) rs
    refine ⟨flags, later, hmade, hmore, ?_, ?_⟩
    · rw [take_chunks hv rfl, length_sent]
      exact hconsumed
    · rw [take_chunks hv rfl, ← sent_append]
      exact congrArg (sent unsigned) hbytes
  · rw [if_neg hk, if_neg hk]
    have hall : v.chunks.take k = v.chunks := List.take_of_length_le (Nat.not_lt.1 hk)
    exact ⟨hdone.fault, hall.symm, fun _ => rfl, fun hlt => absurd hlt hk⟩

/-- The sizes of the first chunks, if the last is not among them. -/
theorem sizes_take {chunks : List (Array UInt8)} {second k : ℕ}
    (hall : ∀ c ∈ chunks.dropLast, c.size = second) (hk : k < chunks.length) :
    (chunks.take k).map Array.size = List.replicate k second := by
  have hbut : chunks.take k = chunks.dropLast.take k := by
    rw [List.dropLast_eq_take, List.take_take, Nat.min_eq_left (by omega)]
  refine List.eq_replicate_iff.2 ⟨?_, ?_⟩
  · rw [List.length_map, List.length_take, Nat.min_eq_left hk.le]
  · intro n hn
    obtain ⟨c, hc, rfl⟩ := List.mem_map.1 hn
    exact hall c (List.mem_of_mem_take (hbut ▸ hc))

/-- Chunks of a second at most hold no more bytes than so many seconds. -/
theorem length_flatMap_le {chunks : List (Array UInt8)} {second : ℕ}
    (hmost : ∀ c ∈ chunks, c.size ≤ second) :
    (chunks.flatMap Array.toList).length ≤ chunks.length * second := by
  rw [List.length_flatMap]
  have hsum := List.sum_le_card_nsmul (chunks.map fun c => c.toList.length) second
    (List.forall_mem_map.2 hmost)
  rwa [List.length_map, smul_eq_mul] at hsum

/-- One row that lasts sixteen seconds. -/
def toll : Score :=
  { songs := #[⟨16, 1, 0, 0, 0, 1⟩] }

def tolling : Stream :=
  ⟨0, .atStart toll ⟨16, 1, 0, 0, 0, 1⟩ { rate := 2000, outputs := .stereo, allowFilter := false },
    #[], 0, false⟩

theorem start_toll :
    start toll 0 { rate := 2000, outputs := .stereo, allowFilter := false } = .ok tolling := rfl

/-- Its first frame tells that there are 32000 of them. -/
theorem endsAfter_toll : (tolling.limited (some 0)).sequencer.EndsAfter true 32000 := by
  have hsteady := (start_eq_ok start_toll).1.steady.limited (some 0)
  obtain ⟨n, hn⟩ := Sequencer.exists_endsAfter hsteady.song (show _ = some 0 from rfl) true
  obtain ⟨⟨f, q⟩, hr⟩ : ∃ r, (tolling.limited (some 0)).sequencer.renderFrame true = some r :=
    Option.isSome_iff_exists.1 (by decide +kernel)
  have hq : q.endFrame = some 32000 := by
    have hknown : ((tolling.limited (some 0)).sequencer.renderFrame true).map (·.2.endFrame) =
        some (some 32000) := by decide +kernel
    rw [hr] at hknown
    exact Option.some.inj hknown
  have hend := hn.endFrame_eq hsteady.song
  cases n with
  | zero =>
    have hopen : (tolling.limited (some 0)).sequencer.isFinished = false := rfl
    have hended := hn.ended
    rw [List.replicate_zero, Sequencer.run, hopen] at hended
    cases hended
  | succ n =>
    rw [List.replicate_succ, Sequencer.run_cons_of_some hr, Sequencer.endFrame_run hq] at hend
    have hframes : 32000 = 0 + (n + 1) := Option.some.inj hend
    rw [hframes, Nat.zero_add]
    exact hn

/-- A receiver takes three of the sixteen seconds of a song that is written anew after a read, and the
fourth is lost. -/
theorem toll_refused :
    start toll 0 { rate := 2000, outputs := .stereo, allowFilter := false } = .ok tolling ∧ 0 ≤ 100 ∧
      let s := [Request.read 3 true].foldl after tolling
      let whole := s.write 0 true false .endless
      let w := s.write 0 true false ⟨some 3, "full"⟩
      16 ≤ whole.chunks.length ∧ w.fault = some (.sink "full") ∧ w.chunks = whole.chunks.take 3 ∧
        w.chunks.map Array.size = [4000, 4000, 4000] ∧ w.stream.consumed = 16000 ∧
        w.stream = ((tolling.limited (some 0)).reads (List.replicate 4 (1000, true))).2.limited none := by
  have hready := (start_eq_ok start_toll).1
  have hreset : ([Request.read 3 true].foldl after tolling).reset = tolling :=
    (hready.foldl_after [.read 3 true]).reset
  obtain ⟨-, -, hmost, hall, hfault, hchunks, -, hlost⟩ :=
    refused_chunk_lost start_toll [.read 3 true] (show 0 ≤ 100 by decide) true false 3 "full"
  rw [if_pos rfl, hreset] at hlost
  obtain ⟨v, hv, hspec⟩ := drain_spec (hready.steady.limited (some 0)) false .endless endsAfter_toll
  have hwrite : ([Request.read 3 true].foldl after tolling).write 0 true false .endless =
      { v with stream := v.stream.limited none } :=
    write_of_drain (show 0 ≤ 100 by decide) true (by rw [if_pos rfl, hreset]; exact hv)
  dsimp only
  rw [hwrite] at hmost hall hfault hchunks hlost ⊢
  -- the whole output has 64000 bytes
  have hbytes := congrArg List.length (hspec rfl).bytes
  rw [length_sent, List.length_append, Sequencer.length_pcm_run, endsAfter_toll.all] at hbytes
  have hmany : 16 ≤ v.chunks.length := by
    have hle := length_flatMap_le fun c hc => (hmost c hc).2
    rw [hbytes] at hle
    change 0 + 32000 * 2 ≤ v.chunks.length * (2000 * 2) at hle
    omega
  have hthree : 3 < v.chunks.length := by omega
  obtain ⟨hstream, hlater⟩ := hlost hthree
  obtain ⟨-, -, -, -, hconsumed, -⟩ := hlater []
  have hgone := congrArg List.sum (sizes_take hall (show 4 < v.chunks.length by omega))
  refine ⟨start_toll, by decide, hmany, hfault.trans (if_pos hthree), hchunks, ?_, ?_, hstream⟩
  · rw [hchunks]
    exact sizes_take hall hthree
  · rw [hconsumed, List.length_flatMap]
    exact congrArg (0 + ·) hgone

end Chiptune.Stream
