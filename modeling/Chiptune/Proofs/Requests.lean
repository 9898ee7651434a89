import Mathlib
import Chiptune.Proofs.Reads

/-!
# Streams in use

A stream is read, written and reset in any order. Whatever was asked of it, its books are in order
and a reset gives the stream of the start.

* `Ready.foldl_after`: what holds after any requests.
* `drain_reads`: a write is a number of reads.
* `frames_handed_out`: **the bytes handed out and those still buffered are the bytes of all frames
  made since a reset**, whatever the reads were, and how they were cut does not matter.
-/

namespace Chiptune.Stream

/-- What can be asked of a stream. -/
inductive Request where
  | read (ms : ℕ) (looping : Bool)
  | write (loops : ℕ) (fromStart unsigned : Bool) (sink : Sink)
  | reset

/-- The stream after a request, answered or refused. -/
def after (s : Stream) : Request → Stream
  | .read ms looping => (s.answer ms looping).2
  | .write loops fromStart unsigned sink => (s.write loops fromStart unsigned sink).stream
  | .reset => s.reset

/-- A stream between two requests, when it was started as `s₀`. -/
structure Ready (s₀ s : Stream) : Prop where
  steady : s.Steady
  reset : s.reset = s₀
  fresh : s₀.Steady
  unlimited : s₀.sequencer.progress.loopLimit = none

variable {score : Score} {index : ℕ} {setup : Setup} {s₀ s s' : Stream}

theorem Served.ready {flags : List Bool} {data : List UInt8} (hserved : Served flags s data s')
    (h : Ready s₀ s) (hs' : s'.Steady) : Ready s₀ s' :=
  ⟨hs', hserved.reset_eq.trans h.reset, h.fresh, h.unlimited⟩

/-- A stream that is started has made nothing. -/
theorem start_eq_ok (h : start score index setup = .ok s₀) :
    Ready s₀ s₀ ∧ ∃ song, score.songs[index]? = some song ∧
      s₀ = ⟨index, .atStart score song setup, #[], 0, false⟩ := by
  unfold start at h
  cases hq : Sequencer.start score index setup with
  | error fault => rw [hq] at h; cases h
  | ok q =>
    rw [hq] at h
    obtain rfl := Except.ok.inj h
    obtain ⟨hsteady, song, hsong, rfl⟩ := Sequencer.start_eq_ok hq
    have hfresh : Steady ⟨index, .atStart score song setup, #[], 0, false⟩ :=
      ⟨hsteady, Nat.zero_le _, (Nat.zero_mul _).symm, Nat.dvd_zero _⟩
    exact ⟨⟨hfresh, rfl, hfresh, rfl⟩, song, hsong, rfl⟩

/-- A reset stream is the stream of the start. -/
theorem Ready.rewound (h : Ready s₀ s) : Ready s₀ s.reset :=
  ⟨h.reset ▸ h.fresh, h.reset, h.fresh, h.unlimited⟩

/-! ## Limits -/

theorem reset_limited (s : Stream) (limit : Option ℕ) :
    (s.limited limit).reset = s.reset.limited limit := rfl

theorem Steady.limited (h : s.Steady) (limit : Option ℕ) : (s.limited limit).Steady :=
  ⟨h.song.setLoopLimit limit, h.fits, h.balance, h.whole⟩

/-- Taking the limit off a stream that had none before gives it back. -/
theorem limited_limited (h : s.sequencer.progress.loopLimit = none) (limit : Option ℕ) :
    (s.limited limit).limited none = s := by
  change s.limited none = s
  rw [limited, Sequencer.setLoopLimit, ← h]

/-! ## Writes -/

/-- **A write is a number of reads** of a second each, also one that fails. -/
theorem drain_reads {unsigned : Bool} {sink : Sink} {w : Written}
    (h : s.drain unsigned sink = some w) :
    ∃ n, w.stream = (s.reads (List.replicate n (longestRead, true))).2 := by
  refine drain.partial_correctness unsigned
    (fun _ s w => ∃ n, w.stream = (s.reads (List.replicate n (longestRead, true))).2) ?_ sink s w h
  -- a round ends the write, or reads once more and goes on
  intro drain ih sink s w h
  split at h
  · obtain rfl := Option.some.inj h
    exact ⟨0, rfl⟩
  split at h
  · obtain rfl := Option.some.inj h
    exact ⟨0, rfl⟩
  · rename_i data s' hread
    have hanswer : (s.answer longestRead true).2 = s' := by rw [answer, hread]
    split at h
    · obtain rfl := Option.some.inj h
      exact ⟨1, hanswer.symm⟩
    · obtain ⟨rest, hrest, hw⟩ := Option.bind_eq_some_iff.1 h
      obtain ⟨n, hn⟩ := ih _ _ _ hrest
      obtain rfl := Option.some.inj hw
      refine ⟨n + 1, ?_⟩
      rw [List.replicate_succ, reads, hanswer]
      exact hn

theorem Steady.reads (h : s.Steady) (rs : List (ℕ × Bool)) :
    (s.reads rs).2.Steady ∧ (s.reads rs).2.reset = s.reset := by
  obtain ⟨_, -, hserved, hsteady⟩ := served_reads h rs
  exact ⟨hsteady, hserved.reset_eq⟩

/-- A write leaves a stream with its books in order, and without a limit. -/
theorem Ready.write (h : Ready s₀ s) (loops : ℕ) (fromStart unsigned : Bool) (sink : Sink) :
    Ready s₀ (s.write loops fromStart unsigned sink).stream := by
  unfold Stream.write
  split
  · exact h
  set t := (if fromStart then s.reset else s).limited (some loops) with ht
  have hrewound : Ready s₀ (if fromStart then s.reset else s) := by
    split
    · exact h.rewound
    · exact h
  have hsteady : t.Steady := hrewound.steady.limited _
  have hreset : t.reset = s₀.limited (some loops) := by rw [ht, reset_limited, hrewound.reset]
  -- whatever is left of the stream, its limit is taken off
  have hfinish {q : Stream} (hq : q.Steady) (hr : q.reset = t.reset) : Ready s₀ (q.limited none) := by
    refine ⟨hq.limited _, ?_, h.fresh, h.unlimited⟩
    rw [reset_limited, hr, hreset, limited_limited h.unlimited]
  change Ready s₀ (((t.drain unsigned sink).getD ⟨[], none, t⟩).stream.limited none)
  cases hw : t.drain unsigned sink with
  | none => exact hfinish hsteady rfl
  | some w =>
    obtain ⟨n, hn⟩ := drain_reads hw
    obtain ⟨hq, hr⟩ := hsteady.reads (List.replicate n (longestRead, true))
    rw [← hn] at hq hr
    exact hfinish hq hr

/-- **Every request leaves a stream in order.** -/
theorem Ready.after (h : Ready s₀ s) (r : Request) : Ready s₀ (s.after r) := by
  cases r with
  | read ms looping =>
    obtain ⟨k, hserved, hsteady⟩ := served_answer h.steady ms looping
    exact hserved.ready h hsteady
  | write loops fromStart unsigned sink => exact h.write loops fromStart unsigned sink
  | reset => exact h.rewound

theorem Ready.foldl_after (h : Ready s₀ s) (requests : List Request) :
    Ready s₀ (requests.foldl Stream.after s) := by
  induction requests generalizing s with
  | nil => exact h
  | cons r requests ih => exact ih (h.after r)

/-! ## The frames behind the bytes -/

/-- The bytes handed out since the start are whole frames, and so are those still buffered. -/
theorem Served.cut {flags : List Bool} {data : List UInt8} (h : Served flags s₀ data s)
    (hs : s.Steady) (hempty : s₀.pending = #[]) (hzero : s₀.consumed = 0) :
    ∃ k, data = Frame.pcm ((s₀.sequencer.run flags).1.take k) ∧
      s.pending.toList = Frame.pcm ((s₀.sequencer.run flags).1.drop k) := by
  obtain ⟨k, hk⟩ := hs.whole
  refine ⟨k, Frame.pcm_cut (Sequencer.size_of_mem_run flags s₀.sequencer) ?_ ?_⟩
  · rw [h.bytes, hempty]
    rfl
  · have hlen : data.length = s.consumed := by rw [h.consumed, hzero, Nat.zero_add]
    rw [hlen, hk, frameSize_eq_of_reset_eq h.reset_eq, Nat.mul_comm]
    rfl

/-- Under one flag the bytes handed out are the first bytes of the song. -/
theorem reads_of_one_flag (h : s₀.Steady) (hempty : s₀.pending = #[])
    (hzero : s₀.sequencer.frames = 0) {looping : Bool} {rs : List (ℕ × Bool)}
    (hrs : ∀ r ∈ rs, r.2 = looping) {n : ℕ}
    (hn : (s₀.reads rs).2.sequencer.frames ≤ n) :
    (s₀.reads rs).1 <+: Frame.pcm (s₀.sequencer.run (List.replicate n looping)).1 := by
  obtain ⟨counts, -, hserved, -⟩ := served_reads h rs
  generalize hflags : (rs.zip counts).flatMap _ = flags at hserved
  -- how many frames each read made does not matter, for all of them have the same flag
  have hsame : flags = List.replicate flags.length looping := by
    refine List.eq_replicate_iff.2 ⟨rfl, fun b hb => ?_⟩
    rw [← hflags] at hb
    obtain ⟨⟨r, k⟩, hmem, hb⟩ := List.mem_flatMap.1 hb
    rw [List.eq_of_mem_replicate hb]
    exact hrs r (List.of_mem_zip hmem).1
  have hframes : (s₀.reads rs).2.sequencer.frames = flags.length := by
    rw [hserved.sequencer, Sequencer.frames_run, hzero, Nat.zero_add, hserved.made]
  have hbytes := hserved.bytes
  rw [hempty, hsame] at hbytes
  have hout :
      (s₀.reads rs).1 <+: Frame.pcm (s₀.sequencer.run (List.replicate flags.length looping)).1 :=
    ⟨_, hbytes⟩
  exact hout.trans (Frame.pcm_mono (Sequencer.run_replicate_mono looping (hframes ▸ hn) _))

/-- The bytes that a read of some milliseconds asks for, a frame that is begun counting whole. -/
theorem wanted_eq_ceil (s : Stream) (ms : ℕ) :
    s.wanted ms = s.frameSize * (s.sequencer.setup.rate * ms ⌈/⌉ 1000) := by
  rw [wanted, Nat.ceilDiv_eq_add_pred_div, Nat.mul_comm]
  rfl

/-- **A stream hands out its song.** Take a stream that was used in any way and reset, and any reads
of it. The frames made since then are those of the song from its start, some under the flag of each
read; the bytes handed out are those of the first frames, the bytes still buffered those of the rest.
As long as the end is not reached, a read of up to a second hands out the frames it asks for, or those
up to the end if they are fewer, and never nothing. Under one flag, all reads hand out a beginning of
the same bytes. -/
theorem frames_handed_out (h₀ : start score index setup = .ok s₀) (requests : List Request)
    (rs : List (ℕ × Bool)) :
    let s := (requests.foldl after s₀).reset
    let out := (s.reads rs).1
    let t := (s.reads rs).2
    (∃ counts : List ℕ, counts.length = rs.length ∧
      let flags := (rs.zip counts).flatMap fun (r, k) => List.replicate k r.2
      let frames := (s₀.sequencer.run flags).1
      frames.length = flags.length ∧ t.sequencer = (s₀.sequencer.run flags).2 ∧
      out ++ t.pending.toList = Frame.pcm frames ∧ t.pending.size ≤ t.capacity ∧
      ∃ k, out = Frame.pcm (frames.take k) ∧ t.pending.toList = Frame.pcm (frames.drop k)) ∧
    (∀ ms looping, 0 < ms → ms ≤ 1000 → t.atEnd = false →
      ∃ data t', t.read ms looping = .ok (data, t') ∧ 0 < data.size ∧
        let most := setup.frameSize * (setup.rate * ms ⌈/⌉ 1000)
        data.size = t'.endBytes.elim most fun e => min most (e - out.length)) ∧
    ∀ looping, (∀ r ∈ rs, r.2 = looping) →
      (∀ n ≥ t.sequencer.frames, out <+: Frame.pcm (s₀.sequencer.run (List.replicate n looping)).1) ∧
      ∀ rs', (∀ r ∈ rs', r.2 = looping) → out <+: (s.reads rs').1 ∨ (s.reads rs').1 <+: out := by
  obtain ⟨hready, song, -, hs₀⟩ := start_eq_ok h₀
  rw [show (requests.foldl after s₀).reset = s₀ from (hready.foldl_after requests).reset]
  intro s out t
  have hempty : s₀.pending = #[] := by rw [hs₀]
  have hconsumed : s₀.consumed = 0 := by rw [hs₀]
  have hframes : s₀.sequencer.frames = 0 := by rw [hs₀]; rfl
  have hsetup : s₀.sequencer.setup = setup := by rw [hs₀]; rfl
  obtain ⟨counts, hcounts, hserved, ht⟩ := served_reads hready.fresh rs
  have hout : out.length = t.consumed := by rw [hserved.consumed, hconsumed, Nat.zero_add]
  have hbytes := hserved.bytes
  rw [hempty, List.nil_append] at hbytes
  refine ⟨⟨counts, hcounts, hserved.made, hserved.sequencer, hbytes, ht.fits,
    hserved.cut ht hempty hconsumed⟩, ?_, ?_⟩
  · intro ms looping hpos hms hopen
    obtain ⟨data, t', hread, hsome, hsize⟩ := read_spec ht hopen ⟨hpos, hms⟩ looping
    have hmost : t.wanted ms = setup.frameSize * (setup.rate * ms ⌈/⌉ 1000) := by
      rw [wanted_eq_of_reset_eq hserved.reset_eq, wanted_eq_ceil, frameSize, hsetup]
    refine ⟨data, t', hread, hsome, ?_⟩
    rw [← hmost, hout]
    exact hsize
  · intro looping hrs
    refine ⟨fun n hn => reads_of_one_flag hready.fresh hempty hframes hrs hn, fun rs' hrs' => ?_⟩
    exact List.prefix_or_prefix_of_prefix
      (reads_of_one_flag hready.fresh hempty hframes hrs (Nat.le_max_left _ _))
      (reads_of_one_flag hready.fresh hempty hframes hrs' (Nat.le_max_right _ _))

/-- A song of one silent row, ten frames long. -/
def breath : Score :=
  { songs := #[⟨1, 1, 0, 0, 0, 200⟩] }

/-- The stream of that song at its start. -/
def breathing : Stream :=
  ⟨0, .atStart breath ⟨1, 1, 0, 0, 0, 200⟩ { rate := 2000, outputs := .stereo }, #[], 0, false⟩

theorem start_breath : start breath 0 { rate := 2000, outputs := .stereo } = .ok breathing := rfl

theorem breath_handed_out :
    start breath 0 { rate := 2000, outputs := .stereo } = .ok breathing ∧
      let s := ([Request.read 3 false, .read 7 false].foldl after breathing).reset
      let t := (s.reads [(2, false)]).2
      t.atEnd = false ∧ (∃ data t', t.read 4 false = .ok (data, t') ∧ 0 < data.size) ∧
      ((s.reads [(2, false)]).1 <+: (s.reads [(1, false), (3, false)]).1 ∨
        (s.reads [(1, false), (3, false)]).1 <+: (s.reads [(2, false)]).1) := by
  obtain ⟨-, hread, hflag⟩ :=
    frames_handed_out start_breath [.read 3 false, .read 7 false] [(2, false)]
  have hopen : ((([Request.read 3 false, .read 7 false].foldl after breathing).reset.reads
      [(2, false)]).2).atEnd = false := by decide +kernel
  obtain ⟨data, t', hdata, hsome, -⟩ := hread 4 false (by decide) (by decide) hopen
  exact ⟨start_breath, hopen, ⟨data, t', hdata, hsome⟩,
    (hflag false (by decide)).2 [(1, false), (3, false)] (by decide)⟩

end Chiptune.Stream
