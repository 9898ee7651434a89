import Mathlib
import Chiptune.Proofs.Ranges

/-!
# Glides arrive

With portamento on, a track glides from the period of one note to that of the next. Every tick brings
it nearer by the speed of the glide, and the last step is cut short, so that the glide ends on the note
and not past it.

* `Period.toward`: where a glide is when it has come so far.
* `Track.Bound.ticked`: **a tick is a step of the glide**, unless the row slides as well.
* `Track.Bound.after_ticks`: **so many ticks are as many steps.**
* `Track.glide_arrives`: all of this for every track in use.
-/

namespace Chiptune

open Period (Playable)

/-- A period on the way from one to another when it has come so far. -/
def Period.toward (p q : ℤ) (way : ℕ) : ℤ :=
  if (q - p).natAbs ≤ way then q else if p < q then p + way else p - way

/-- What is left of the way is gone as the whole of it. -/
theorem Period.toward_toward (p q : ℤ) (a b : ℕ) :
    toward (toward p q a) q b = toward p q (a + b) := by
  unfold toward
  split_ifs <;> omega

theorem Period.toward_zero (p q : ℤ) : toward p q 0 = p := by
  unfold toward
  split_ifs <;> omega

theorem Period.toward_between (p q : ℤ) (way : ℕ) :
    min p q ≤ toward p q way ∧ toward p q way ≤ max p q := by
  unfold toward
  split_ifs <;> omega

namespace Track

variable {score : Score} {tr : Track} {q : ℤ} {s : ℕ}

/-! ## Ticks -/

/-- A glide that moves at all goes the way of its speed. -/
theorem glided_eq_toward (p q : ℤ) (hs : 0 < s) : glided p q s = Period.toward p q s := by
  unfold glided Period.toward
  rw [if_neg hs.ne']
  split_ifs <;> omega

/-- A track that glides to a period or has come to it, in a row without a slide. -/
structure Bound (q : ℤ) (s : ℕ) (tr : Track) : Prop where
  goal : Playable q
  playable : Playable tr.period
  target : tr.target = some q ∨ tr.target = none ∧ tr.period = q
  slide : tr.slide = 0
  speed : tr.glideSpeed = s

/-- Neither effects nor slides touch what a glide is steered by. -/
theorem steering_slid (tr : Track) (score : Score) (first : Bool) :
    let tr' := (tr.counted.reshaped score).slid first
    tr'.target = tr.target ∧ tr'.slide = tr.slide ∧ tr'.glideSpeed = tr.glideSpeed := by
  have hreshaped : (tr.counted.reshaped score).target = tr.target ∧
      (tr.counted.reshaped score).slide = tr.slide ∧
      (tr.counted.reshaped score).glideSpeed = tr.glideSpeed := by
    unfold Track.reshaped
    split <;> exact ⟨rfl, rfl, rfl⟩
  unfold slid
  cases first <;> exact hreshaped

/-- A row without a slide leaves the period to the glide. -/
theorem period_slid (hslide : tr.slide = 0) (hplays : Playable tr.period) (score : Score)
    (first : Bool) : ((tr.counted.reshaped score).slid first).period = tr.period := by
  have hperiod : (tr.counted.reshaped score).period = tr.period := period_reshaped _ _
  have hslide' : (tr.counted.reshaped score).slide = 0 := by
    rw [← hslide]
    exact (steering_slid tr score true).2.1
  unfold slid
  cases first with
  | true => exact hperiod
  | false =>
    -- a playable period is not cut
    change Period.limit _ _ (_ - _) = _
    rw [hperiod, hslide', sub_zero]
    exact Period.limit_of_mem hplays

theorem glide_of_some (h : tr.target = some q) :
    tr.glide = { tr with
      period := glided tr.period q tr.glideSpeed
      target := if glided tr.period q tr.glideSpeed = q then none else some q } := by
  rw [glide, h]

/-- **A step of a glide**, which ends it if it comes to the goal. -/
theorem Bound.stepped (h : Bound q s tr) :
    Bound q s tr.glide ∧ tr.glide.period = glided tr.period q s ∧
      tr.glide.target = if tr.glide.period = q then none else some q := by
  obtain ⟨hgoal, hplays, htarget, hslide, hspeed⟩ := h
  obtain htarget | ⟨htarget, harrived⟩ := htarget
  · obtain ⟨hlo, hhi⟩ := glided_between tr.period q s
    rw [glide_of_some htarget, hspeed]
    refine ⟨⟨hgoal, hplays.between hgoal hlo hhi, ?_, hslide, hspeed⟩, rfl, rfl⟩
    by_cases hmet : glided tr.period q s = q
    · exact Or.inr ⟨if_pos hmet, hmet⟩
    · exact Or.inl (if_neg hmet)
  · -- nothing moves a track that has arrived
    have hglide : tr.glide = tr := by rw [glide, htarget]
    have hstays : glided q q s = q := by
      unfold glided
      split_ifs <;> omega
    rw [hglide, harrived, hstays, if_pos rfl]
    exact ⟨⟨hgoal, hplays, Or.inr ⟨htarget, harrived⟩, hslide, hspeed⟩, rfl, htarget⟩

/-- **A tick is a step of the glide.** -/
theorem Bound.ticked (h : Bound q s tr) (score : Score) (speed : ℕ) (ch : Channel) :
    let tr' := (tr.tick score speed ch).1
    Bound q s tr' ∧ tr'.period = glided tr.period q s ∧
      tr'.target = if tr'.period = q then none else some q := by
  intro tr'
  have hplays : tr.period ≠ 0 := by
    have := h.playable.1
    unfold Period.lowest at this
    omega
  have htr' : tr' = (tr.due score speed).moved score := by
    change (tr.tick score speed ch).1 = _
    rw [tick_of_playing speed ch hplays]
  obtain ⟨htarget, hslide, hspeed⟩ := steering_slid tr score (tr.isFirstTick speed)
  have hperiod := period_slid h.slide h.playable score (tr.isFirstTick speed)
  have hmid : Bound q s ((tr.counted.reshaped score).slid (tr.isFirstTick speed)) := by
    refine ⟨h.goal, ?_, ?_, hslide.trans h.slide, hspeed.trans h.speed⟩
    · rw [hperiod]
      exact h.playable
    · rw [hperiod, htarget]
      exact h.target
  obtain ⟨hbound, hstep, hleft⟩ := hmid.stepped
  rw [hperiod] at hstep
  rw [htr']
  exact ⟨⟨hbound.goal, hbound.playable, hbound.target, hbound.slide, hbound.speed⟩, hstep, hleft⟩

/-- The track after some ticks, each with a speed of the song and a channel of its own. -/
def ticks (score : Score) (tr : Track) (ts : List (ℕ × Channel)) : Track :=
  ts.foldl (fun tr t => (tr.tick score t.1 t.2).1) tr

/-- **So many ticks are as many steps**, and from the first one on the goal is kept as long as it is not
met. -/
theorem Bound.after_ticks (h : Bound q s tr) (hs : 0 < s) (score : Score)
    (ts : List (ℕ × Channel)) :
    let tr' := tr.ticks score ts
    Bound q s tr' ∧ tr'.period = Period.toward tr.period q (ts.length * s) ∧
      (0 < ts.length → tr'.target = if tr'.period = q then none else some q) := by
  induction ts using List.reverseRecOn with
  | nil =>
    refine ⟨h, ?_, fun hsome => absurd hsome (Nat.lt_irrefl 0)⟩
    rw [List.length_nil, Nat.zero_mul, Period.toward_zero]
    rfl
  | append_singleton ts t ih =>
    obtain ⟨hbefore, hperiod, -⟩ := ih
    obtain ⟨hbound, hstep, htarget⟩ := hbefore.ticked score t.1 t.2
    have hlast : tr.ticks score (ts ++ [t]) = ((tr.ticks score ts).tick score t.1 t.2).1 :=
      List.foldl_concat _ _ _ _
    rw [hlast]
    refine ⟨hbound, ?_, fun _ => htarget⟩
    rw [hstep, hperiod, glided_eq_toward _ _ hs, Period.toward_toward, List.length_append,
      List.length_singleton, Nat.add_one_mul]

/-! ## Tracks in use -/

/-- What a track is told. Ticks and notes drive a channel, and it may be any. -/
inductive Cue where
  | play (part : Part) (note : Note) (t : Float) (ch : Channel)
  | command (note : Note)
  | tick (speed : ℕ) (ch : Channel)

/-- The track after it was told something. -/
def cued (score : Score) (tr : Track) : Cue → Track
  | .play part note t ch => (tr.play score part note t ch).1
  | .command note => tr.command note
  | .tick speed ch => (tr.tick score speed ch).1

theorem InRange.cued (h : tr.InRange) (score : Score) (c : Cue) : (tr.cued score c).InRange := by
  cases c with
  | play part note t ch => exact (h.played score part note t ch).1
  | command note => exact h.commanded note
  | tick speed ch => exact h.ticked score speed ch

theorem inRange_foldl_cued (score : Score) (index : ℕ) (cues : List Cue) :
    (cues.foldl (cued score) (idle index)).InRange := by
  refine List.foldlRecOn cues (cued score) (inRange_idle index) ?_
  intro tr h c _
  exact h.cued score c

/-- The command that ends portamento puts a track on the goal of its glide. -/
theorem command_of_clear {note : Note} (hclear : note.command = .clearPortamento) (tr : Track) :
    (tr.command note).period = tr.target.getD tr.period ∧ (tr.command note).target = none := by
  unfold command
  rw [hclear]
  exact ⟨rfl, rfl⟩

theorem Bound.cleared (h : Bound q s tr) {note : Note} (hclear : note.command = .clearPortamento) :
    (tr.command note).period = q ∧ (tr.command note).target = none := by
  obtain ⟨hperiod, htarget⟩ := command_of_clear hclear tr
  refine ⟨hperiod.trans ?_, htarget⟩
  obtain hgoal | ⟨hgoal, harrived⟩ := h.target
  · rw [hgoal, Option.getD_some]
  · rw [hgoal, Option.getD_none, harrived]

/-- A glide without a speed is over with the next tick, also in a row that slides. -/
theorem tick_of_no_speed (hplays : tr.period ≠ 0) (htarget : tr.target = some q)
    (hspeed : tr.glideSpeed = 0) (score : Score) (speed : ℕ) (ch : Channel) :
    (tr.tick score speed ch).1.period = q ∧ (tr.tick score speed ch).1.target = none := by
  obtain ⟨htarget', -, hspeed'⟩ := steering_slid tr score (tr.isFirstTick speed)
  rw [tick_of_playing speed ch hplays]
  change (tr.due score speed).period = q ∧ (tr.due score speed).target = none
  unfold due
  generalize (tr.counted.reshaped score).slid (tr.isFirstTick speed) = mid at htarget' hspeed' ⊢
  have hmet : glided mid.period q 0 = q := if_pos rfl
  rw [glide_of_some (htarget'.trans htarget), hspeed'.trans hspeed]
  exact ⟨hmet, if_pos hmet⟩

/-- **Glides arrive.** Take any track, told anything before, that has a period and a goal `q` that its
glide leads to.

In a row without a slide, let it make any number `n` of ticks. If the glide has a speed, the period
is the goal when the way was not longer than `n` steps, and else has come nearer by `n` steps. It
is never outside of the way; the goal is dropped by the tick that meets it, not before; and once
it is met no tick leads away from it. A glide without a speed is over with the first tick, and the
command that ends portamento ends any glide on its goal at once. -/
theorem glide_arrives (score : Score) (index : ℕ) (cues : List Cue) (q : ℤ) :
    let tr := cues.foldl (cued score) (idle index)
    let p := tr.period
    let s := tr.glideSpeed
    0 < p → tr.target = some q →
      (0 < s → tr.slide = 0 → ∀ ts : List (ℕ × Channel),
        let n := ts.length
        let tr' := tr.ticks score ts
        tr'.period = (if |q - p| ≤ n * s then q else if p < q then p + n * s else p - n * s) ∧
        (min p q ≤ tr'.period ∧ tr'.period ≤ max p q) ∧
        (0 < n → tr'.target = if tr'.period = q then none else some q) ∧
        (tr'.period = q → ∀ later, (tr'.ticks score later).period = q) ∧
        ∀ note, note.command = .clearPortamento →
          (tr'.command note).period = q ∧ (tr'.command note).target = none) ∧
      (s = 0 → ∀ speed ch,
        (tr.tick score speed ch).1.period = q ∧ (tr.tick score speed ch).1.target = none) ∧
      ∀ note, note.command = .clearPortamento →
        (tr.command note).period = q ∧ (tr.command note).target = none := by
  intro tr p s hpos htarget
  have hrange : tr.InRange := inRange_foldl_cued score index cues
  refine ⟨?_, ?_, ?_⟩
  · intro hs hslide ts n tr'
    have hbound : Bound q s tr :=
      ⟨hrange.target q htarget, hrange.period.resolve_left hpos.ne', Or.inl htarget, hslide, rfl⟩
    obtain ⟨hbound', hperiod, htarget'⟩ := hbound.after_ticks hs score ts
    refine ⟨?_, ?_, htarget', ?_, fun note hclear => hbound'.cleared hclear⟩
    · refine hperiod.trans ?_
      unfold Period.toward
      rw [Int.abs_eq_natAbs]
      norm_cast
    · change min p q ≤ (tr.ticks score ts).period ∧ (tr.ticks score ts).period ≤ max p q
      rw [hperiod]
      exact Period.toward_between _ _ _
    · intro hmet later
      obtain ⟨-, hlater, -⟩ := hbound'.after_ticks hs score later
      rw [hlater, hmet]
      obtain ⟨hlo, hhi⟩ := Period.toward_between q q (later.length * s)
      omega
  · intro hs speed ch
    exact tick_of_no_speed hpos.ne' htarget hs score speed ch
  · intro note hclear
    obtain ⟨hperiod, hnone⟩ := command_of_clear hclear tr
    exact ⟨hperiod.trans (by rw [htarget]; rfl), hnone⟩

/-- An instrument to glide on. -/
def slur : Score :=
  { instruments := #[{ (default : Instrument) with volume := 64 }] }

/-- A note, a portamento of 40, and the note above. -/
def slurred : List Cue :=
  [.play ⟨0, 0, 0⟩ ⟨37, 1, 0, 0⟩ 0.0 .idle, .command ⟨0, 0, 7, 40⟩,
    .play ⟨0, 0, 0⟩ ⟨38, 1, 0, 0⟩ 0.0 .idle]

theorem slur_arrives :
    let tr := slurred.foldl (cued slur) (idle 0)
    0 < tr.period ∧ tr.target = some 1616 ∧ 0 < tr.glideSpeed ∧ tr.slide = 0 ∧
      (tr.ticks slur (List.replicate 2 (6, .idle))).period = 1632 ∧
      (tr.ticks slur (List.replicate 3 (6, .idle))).period = 1616 ∧
      (⟨0, 0, 8, 0⟩ : Note).command = .clearPortamento ∧
      (tr.command ⟨0, 0, 8, 0⟩).period = 1616 := by
  intro tr
  have hperiod : tr.period = 1712 := by decide +kernel
  have hspeed : tr.glideSpeed = 40 := by decide +kernel
  have htarget : tr.target = some 1616 := by decide +kernel
  have hslide : tr.slide = 0 := by decide +kernel
  have hpos : 0 < tr.period := by omega
  have hmoves : 0 < tr.glideSpeed := by omega
  obtain ⟨hglide, -, hclear⟩ := glide_arrives slur 0 slurred 1616 hpos htarget
  have hafter (n : ℕ) : (tr.ticks slur (List.replicate n (6, .idle))).period =
      if |1616 - tr.period| ≤ n * tr.glideSpeed then 1616
      else if tr.period < 1616 then tr.period + n * tr.glideSpeed
      else tr.period - n * tr.glideSpeed := by
    have hn := (hglide hmoves hslide (List.replicate n (6, .idle))).1
    rwa [List.length_replicate] at hn
  rw [hperiod, hspeed] at hafter
  exact ⟨hpos, htarget, hmoves, hslide, hafter 2, hafter 3, rfl, (hclear _ rfl).1⟩

end Track

end Chiptune
