import Mathlib
import Chiptune.Proofs.Writes

/-!
# The end of a stream

The end gets known ahead of the reader. From then on it stays, the reader does not pass it, and every
read that asks for something comes nearer to it.

* `endBytes_foldl_after`: a known end stays, until the stream is reset.
* `atEnd_reads`: reads come to it.
* `after_of_atEnd`: at the end nothing changes the stream but a reset.
* `end_is_final`: all of this for every stream in use.
-/

namespace Chiptune

namespace Sequencer

/-- A known end stays. -/
theorem endFrame_run {s : Sequencer} {e : ℕ} (he : s.endFrame = some e) (flags : List Bool) :
    (run flags s).2.endFrame = some e := by
  refine run_induction (P := fun q => q.endFrame = some e) (fun {looping s f s'} hf hs => ?_) he
  have hmove := hf.move
  generalize s'.progress = p at hmove
  generalize s'.endFrame = o at hmove ⊢
  cases hmove with
  | stay => exact hs
  | count hi hnone | turn hi hnone | finish hi hnone => rw [hnone] at hs; cases hs

end Sequencer

namespace Stream

variable {s s' s₀ : Stream} {score : Score} {index : ℕ} {setup : Setup} {e : ℕ}

/-- Whether a request takes the stream back to its start. -/
def Request.rewinds : Request → Bool
  | .read _ _ => false
  | .write _ fromStart _ _ => fromStart
  | .reset => true

theorem Served.endBytes {flags : List Bool} {data : List UInt8} (h : Served flags s data s')
    (he : s.endBytes = some e) : s'.endBytes = some e := by
  obtain ⟨n, hn, rfl⟩ := Option.map_eq_some_iff.1 he
  rw [Stream.endBytes, h.sequencer, Sequencer.endFrame_run hn, frameSize_eq_of_reset_eq h.reset_eq]
  rfl

theorem endBytes_limited (s : Stream) (limit : Option ℕ) :
    (s.limited limit).endBytes = s.endBytes := rfl

/-- **A known end stays**, whatever is read or written next. -/
theorem Ready.endBytes_after (h : Ready s₀ s) (he : s.endBytes = some e) {r : Request}
    (hr : r.rewinds = false) : (s.after r).endBytes = some e := by
  cases r with
  | read ms looping =>
    obtain ⟨k, hserved, -⟩ := served_answer h.steady ms looping
    exact hserved.endBytes he
  | reset => cases hr
  | write loops fromStart unsigned sink =>
    obtain rfl : fromStart = false := hr
    rcases Nat.lt_or_ge mostLoops loops with hmany | hloops
    · rw [Stream.after, Stream.write, if_pos hmany]
      exact he
    -- what a write does to the stream, some reads do
    obtain ⟨w, hw⟩ := Option.isSome_iff_exists.1 (h.drain_isSome loops unsigned sink)
    obtain ⟨n, hn⟩ := drain_reads hw
    obtain ⟨_, -, hserved, -⟩ :=
      served_reads (h.steady.limited (some loops)) (List.replicate n (longestRead, true))
    rw [← hn] at hserved
    rw [Stream.after, write_of_drain hloops false hw, endBytes_limited]
    exact hserved.endBytes he

theorem Ready.endBytes_foldl_after (h : Ready s₀ s) (he : s.endBytes = some e)
    {requests : List Request} (hr : ∀ r ∈ requests, r.rewinds = false) :
    (requests.foldl Stream.after s).endBytes = some e := by
  induction requests generalizing s with
  | nil => exact he
  | cons r requests ih =>
    exact ih (h.after r) (h.endBytes_after he (hr r (by simp))) fun r' hr' => hr r' (by simp [hr'])

theorem atEnd_iff (he : s.endBytes = some e) : s.atEnd = true ↔ s.consumed = e := by
  rw [atEnd, he, decide_eq_true_iff, Option.some.injEq, eq_comm]

/-- **Reads come to the end.** Each of them hands out at least one byte. -/
theorem atEnd_reads (h : s.Steady) (he : s.endBytes = some e) {rs : List (ℕ × Bool)}
    (hrs : ∀ r ∈ rs, 1 ≤ r.1 ∧ r.1 ≤ 1000) (hmany : e - s.consumed ≤ rs.length) :
    (s.reads rs).2.atEnd = true := by
  induction rs generalizing s with
  | nil =>
    have := h.le_endBytes he
    have hlen : e - s.consumed ≤ 0 := hmany
    exact (atEnd_iff he).2 (by omega)
  | cons r rs ih =>
    obtain ⟨k, hserved, hsteady⟩ := served_answer h r.1 r.2
    refine ih hsteady (hserved.endBytes he) (fun r' hr' => hrs r' (by simp [hr'])) ?_
    rw [hserved.consumed]
    rw [List.length_cons] at hmany
    cases hopen : s.atEnd with
    | true =>
      have := (atEnd_iff he).1 hopen
      omega
    | false =>
      obtain ⟨data, s', hread, hsome, -⟩ := read_spec h hopen (hrs r (by simp)) r.2
      have hdata : (s.answer r.1 r.2).1 = data.toList := by rw [answer, hread]
      rw [hdata, Array.length_toList]
      omega

/-- At the end a write without a reset has nothing to write, and changes nothing. -/
theorem Ready.write_of_atEnd (h : Ready s₀ s) (hend : s.atEnd = true) {loops : ℕ}
    (hloops : loops ≤ 100) (unsigned : Bool) (sink : Sink) :
    s.write loops false unsigned sink = ⟨[], none, s⟩ := by
  have hfree : s.sequencer.progress.loopLimit = none := by
    have := h.unlimited
    rw [← h.reset] at this
    exact this
  have hdrain : (s.limited (some loops)).drain unsigned sink =
      some ⟨[], none, s.limited (some loops)⟩ := by
    rw [drain, if_pos]
    exact hend
  rw [write_of_drain hloops false hdrain, limited_limited hfree]

/-- **At the end only a reset changes the stream.** -/
theorem Ready.after_of_atEnd (h : Ready s₀ s) (hend : s.atEnd = true) {r : Request}
    (hr : r.rewinds = false) : s.after r = s := by
  cases r with
  | read ms looping => rw [Stream.after, answer, read_of_atEnd hend]
  | reset => cases hr
  | write loops fromStart unsigned sink =>
    obtain rfl : fromStart = false := hr
    rcases Nat.lt_or_ge mostLoops loops with hmany | hloops
    · rw [Stream.after, Stream.write, if_pos hmany]
    · rw [Stream.after, h.write_of_atEnd hend hloops]

theorem Ready.foldl_after_of_atEnd (h : Ready s₀ s) (hend : s.atEnd = true)
    {requests : List Request} (hr : ∀ r ∈ requests, r.rewinds = false) :
    requests.foldl Stream.after s = s := by
  induction requests with
  | nil => rfl
  | cons r requests ih =>
    rw [List.foldl_cons, h.after_of_atEnd hend (hr r (by simp))]
    exact ih fun r' hr' => hr r' (by simp [hr'])

/-- **The end of a stream is final.** However a stream was used until its end got known, and whatever
is read and written from then on, the end stays where it is, and it is not passed; the stream is at
its end exactly when all bytes up to it were handed out, and enough reads that ask for something come
to it. There every read is refused, a write that does not reset the stream writes nothing, and no
request but a reset changes anything. -/
theorem end_is_final (h₀ : start score index setup = .ok s₀) (requests : List Request)
    (he : (requests.foldl after s₀).endBytes = some e) (later : List Request)
    (hlater : ∀ r ∈ later, r.rewinds = false) :
    let t := later.foldl after (requests.foldl after s₀)
    t.endBytes = some e ∧ t.consumed ≤ e ∧ (t.atEnd = true ↔ t.consumed = e) ∧
    (∀ rs : List (ℕ × Bool), (∀ r ∈ rs, 1 ≤ r.1 ∧ r.1 ≤ 1000) → e - t.consumed ≤ rs.length →
      (t.reads rs).2.atEnd = true) ∧
    (t.atEnd = true →
      (∀ ms looping, t.read ms looping = .error .endOfStream) ∧
      (∀ loops ≤ 100, ∀ unsigned sink, t.write loops false unsigned sink = ⟨[], none, t⟩) ∧
      ∀ more : List Request, (∀ r ∈ more, r.rewinds = false) → more.foldl after t = t) := by
  intro t
  have hs : Ready s₀ (requests.foldl after s₀) := (start_eq_ok h₀).1.foldl_after requests
  have ht : Ready s₀ t := hs.foldl_after later
  have hend : t.endBytes = some e := hs.endBytes_foldl_after he hlater
  have hle := ht.steady.le_endBytes hend
  refine ⟨hend, by omega, atEnd_iff hend, ?_, ?_⟩
  · intro rs hrs hmany
    exact atEnd_reads ht.steady hend hrs hmany
  · intro hat
    refine ⟨read_of_atEnd hat, ?_, fun more hmore => ht.foldl_after_of_atEnd hat hmore⟩
    intro loops hloops unsigned sink
    exact ht.write_of_atEnd hat hloops unsigned sink

/-- A read of four frames lets the end get known, six frames ahead; a write that fails and more reads
come to it. -/
theorem breath_end_is_final :
    start breath 0 { rate := 2000, outputs := .stereo } = .ok breathing ∧
      ([Request.read 2 false].foldl after breathing).endBytes = some 20 ∧
      let t := [Request.read 1 true, .write 3 false true ⟨some 0, "full"⟩].foldl after
        ([Request.read 2 false].foldl after breathing)
      t.endBytes = some 20 ∧ (t.reads (List.replicate 20 (1, true))).2.atEnd = true := by
  have hknown : ([Request.read 2 false].foldl after breathing).endBytes = some 20 := by
    decide +kernel
  obtain ⟨hend, -, -, hreads, -⟩ := end_is_final start_breath [.read 2 false] hknown
    [.read 1 true, .write 3 false true ⟨some 0, "full"⟩] (by decide)
  exact ⟨start_breath, hknown, hend, hreads _ (by decide) (Nat.sub_le _ _)⟩

end Stream

end Chiptune
