import Mathlib
import Chiptune.Proofs.Conversion
import Chiptune.Proofs.LoopCap

/-!
# A reset forgets

However a song was used, a reset makes it the song that it was at its start; only the loop limit that
was set last stays. A stream takes its limit off after every write, also after one that failed, so of
a stream nothing stays, and a reset stream cannot be told from a new one.

* `Sequencer.Call`, `Sequencer.called`: songs in use; `called_induction`: what every call keeps.
* `Sequencer.reset_foldl_called`: **a reset song is the new song under the limit set last**.
* `Stream.reset_starts_anew`: a reset stream, and a write from the start, answer as on a new stream.
-/

namespace Chiptune

/-! ## Songs in use -/

namespace Sequencer

variable {s : Sequencer}

/-- What can be asked of a song. -/
inductive Call where
  | frame (looping : Bool)
  | limit (loops : Option ℕ)
  | reset

/-- The frame that a call gives, if it gives one, and the song after it. At its end a song gives no
frame and stays. -/
def call (s : Sequencer) : Call → Option Frame × Sequencer
  | .frame looping =>
    match s.renderFrame looping with
    | none => (none, s)
    | some (f, s') => (some f, s')
  | .limit loops => (none, s.setLoopLimit loops)
  | .reset => (none, s.reset)

/-- The song after a call. -/
def called (s : Sequencer) (c : Call) : Sequencer :=
  (s.call c).2

/-- What a song gives for some calls, one after the other, with the song after each. -/
def answers : List Call → Sequencer → List (Option Frame × Sequencer)
  | [], _ => []
  | c :: calls, s => s.call c :: answers calls (s.called c)

/-- The loop limit after a call. -/
def Call.limitFrom (limit : Option ℕ) : Call → Option ℕ
  | .limit loops => loops
  | _ => limit

theorem called_frame_of_some {looping : Bool} {f : Frame} {s' : Sequencer}
    (h : s.renderFrame looping = some (f, s')) : s.called (.frame looping) = s' := by
  rw [called, call, h]

/-- **What every call keeps, a song in use keeps.** -/
theorem called_induction {P : Sequencer → Prop}
    (hframe : ∀ {looping s f s'}, s.renderFrame looping = some (f, s') → P s → P s')
    (hlimit : ∀ {s} limit, P s → P (s.setLoopLimit limit)) (hreset : ∀ {s}, P s → P s.reset)
    (calls : List Call) (h : P s) : P (calls.foldl called s) := by
  induction calls generalizing s with
  | nil => exact h
  | cons c calls ih =>
    apply ih
    cases c with
    | limit loops => exact hlimit loops h
    | reset => exact hreset h
    | frame looping =>
      cases hr : s.renderFrame looping with
      | none =>
        rw [called, call, hr]
        exact h
      | some r =>
        rw [called_frame_of_some hr]
        exact hframe hr h

/-- A call changes nothing that a reset keeps, but for the loop limit. -/
theorem reset_called (s : Sequencer) (c : Call) :
    (s.called c).reset = s.reset.setLoopLimit (c.limitFrom s.progress.loopLimit) := by
  cases c with
  | limit loops => rfl
  | reset => rfl
  | frame looping =>
    cases hr : s.renderFrame looping with
    | none =>
      rw [called, call, hr]
      rfl
    | some r =>
      rw [called_frame_of_some hr, (follows_of_renderFrame hr).reset]
      rfl

/-- **A reset song is the new song under the limit set last.** -/
theorem reset_foldl_called (calls : List Call) (s : Sequencer) :
    (calls.foldl called s).reset =
      s.reset.setLoopLimit (calls.foldl Call.limitFrom s.progress.loopLimit) := by
  induction calls generalizing s with
  | nil => rfl
  | cons c calls ih =>
    have hc := reset_called s c
    have hlimit : (s.called c).progress.loopLimit = c.limitFrom s.progress.loopLimit := by
      change (s.called c).reset.progress.loopLimit = _
      rw [hc]
      rfl
    rw [List.foldl_cons, List.foldl_cons, ih, hc, hlimit]
    rfl

end Sequencer

/-! ## Streams -/

namespace Stream

open Sequencer (Call called answers)

variable {s₀ : Stream} {score : Score} {index : ℕ} {setup : Setup}

/-- A write from the start is the write of a reset stream. -/
theorem write_fromStart {loops : ℕ} (hloops : loops ≤ 100) (s : Stream) (unsigned : Bool)
    (sink : Sink) : s.write loops true unsigned sink = s.reset.write loops false unsigned sink := by
  have hfew : ¬ mostLoops < loops := Nat.not_lt.2 hloops
  rw [write, if_neg hfew, write, if_neg hfew]
  rfl

/-- What a new stream says, the stream of the start says. -/
theorem session_of_start (h₀ : start score index setup = .ok s₀) (requests : List Request) :
    session score index setup requests = .ok (reports requests s₀) := by
  rw [session, h₀]
  rfl

/-- **A reset starts anew.** Take a stream that was used in any way: read under any flags, written to
receivers that took everything or refused a chunk, reset before. After a reset it answers every
request as a new stream of the same song and settings does. So does a write from the start, and
whatever is asked after it; a new stream writes the same without going back to its start. A song that
was used in any way is after a reset the new song, in every part, under the loop limit that was set
last, and goes on like it. -/
theorem reset_starts_anew (h₀ : start score index setup = .ok s₀) (requests : List Request)
    (calls : List Call) :
    let s := requests.foldl after s₀
    let q₀ := s₀.sequencer
    let q := calls.foldl called q₀
    let limit := calls.foldl Call.limitFrom none
    (∀ later, .ok (reports later s.reset) = session score index setup later) ∧
    (∀ loops ≤ 100, ∀ fromStart unsigned sink later,
      .ok (reports (.write loops true unsigned sink :: later) s) =
        session score index setup (.write loops fromStart unsigned sink :: later)) ∧
    Sequencer.start score index setup = .ok q₀ ∧ q.progress.loopLimit = limit ∧
    q.reset = q₀.setLoopLimit limit ∧
    ∀ later, answers later q.reset = answers later (q₀.setLoopLimit limit) := by
  intro s q₀ q limit
  obtain ⟨hready, song, -, hs₀⟩ := start_eq_ok h₀
  have hs : s.reset = s₀ := (hready.foldl_after requests).reset
  have hq : q.reset = q₀.setLoopLimit limit := by
    have hnew : q₀.reset = q₀ ∧ q₀.progress.loopLimit = none := by
      rw [show q₀ = _ from congrArg Stream.sequencer hs₀]
      exact ⟨rfl, rfl⟩
    have hfold := Sequencer.reset_foldl_called calls q₀
    rwa [hnew.1, hnew.2] at hfold
  refine ⟨?_, ?_, ?_, ?_, hq, ?_⟩
  · intro later
    rw [hs, session_of_start h₀]
  · intro loops hloops fromStart unsigned sink later
    have hwrite (t : Stream) (ht : t.reset = s₀) : t.write loops true unsigned sink =
        s₀.write loops false unsigned sink := by
      rw [write_fromStart hloops, ht]
    -- the new stream is its own start
    have hsame : s.write loops true unsigned sink = s₀.write loops fromStart unsigned sink := by
      cases fromStart with
      | false => exact hwrite s hs
      | true => rw [hwrite s hs, hwrite s₀ hready.reset]
    rw [session_of_start h₀, reports, reports, reply, reply, after, after, hsame]
  · unfold start at h₀
    cases hstart : Sequencer.start score index setup with
    | error fault => rw [hstart] at h₀; cases h₀
    | ok q₁ =>
      rw [hstart] at h₀
      obtain rfl := Except.ok.inj h₀
      rfl
  · change q.reset.progress.loopLimit = limit
    rw [hq]
    rfl
  · intro later
    rw [hq]

/-- A write that failed at its first chunk, an earlier reset and a read leave no trace; of a song a
limit stays. -/
theorem gallop_starts_anew :
    start gallop 0 { rate := 2000, allowFilter := false } = .ok galloping ∧ 3 ≤ 100 ∧
      let s := [Request.read 40 true, .write 2 false true ⟨some 0, "full"⟩, .reset,
        .read 7 false].foldl after galloping
      let q := [Call.limit (some 1), .frame true, .frame false].foldl called galloping.sequencer
      .ok (reports [.read 3 true] s.reset) =
        session gallop 0 { rate := 2000, allowFilter := false } [.read 3 true] ∧
      .ok (reports [.write 3 true false .endless, .read 3 true] s) =
        session gallop 0 { rate := 2000, allowFilter := false }
          [.write 3 false false .endless, .read 3 true] ∧
      q.reset = galloping.sequencer.setLoopLimit (some 1) := by
  obtain ⟨hreset, hwrite, -, -, hsong, -⟩ := reset_starts_anew start_gallop
    [.read 40 true, .write 2 false true ⟨some 0, "full"⟩, .reset, .read 7 false]
    [.limit (some 1), .frame true, .frame false]
  exact ⟨start_gallop, by decide, hreset [.read 3 true],
    hwrite 3 (by decide) false false .endless [.read 3 true], hsong⟩

end Stream

end Chiptune
