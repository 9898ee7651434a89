import Mathlib
import Chiptune.Proofs.Copies

/-!
# Channels keep to themselves

What one channel plays cannot be told from the others, as long as its rows carry no command about the
whole song. So two scores that differ in the parts of one channel only are played side by side: they
take the same course, and every other channel does the same in both.

* `Score.SameBut`, `Score.Local`: scores that differ in one channel, and rows that keep to themselves.
* `Outputs.outputOf`: the output that a channel goes to.
* `Sequencer.SameBut.rendered`: **a frame leaves the songs equal but for that channel**, and differs
  in its output only.
* `Sequencer.channels_apart`: so do all frames of a run.
* `Sequencer.void_not_apart`: a step without rows still plays one, which has to keep to itself too.
-/

namespace Chiptune

/-! ## Notes and scores -/

/-- Whether a note carries a command about the whole song. -/
def Note.IsGlobal (n : Note) : Prop :=
  n.command ∈ [.setMasterVolume, .positionJump, .patternBreak, .disableFilter, .setSpeed]

instance (n : Note) : Decidable n.IsGlobal :=
  inferInstanceAs (Decidable (_ ∈ _))

/-- Any other note asks nothing of the song. -/
theorem Directive.ofNote_of_not_isGlobal {n : Note} (h : ¬ n.IsGlobal) : ofNote n = .nothing := by
  unfold Note.IsGlobal at h
  unfold ofNote
  dsimp only
  split <;> first | rfl | simp_all

namespace Score

/-- Scores that have everything in common but the parts of a channel. -/
structure SameBut (j : Fin 4) (a b : Score) : Prop where
  rest : b = { a with parts := b.parts }
  parts : ∀ i : ℕ, i % 4 ≠ (j : ℕ) → b.parts[i]? = a.parts[i]?

/-- A score in which no part of a channel has a command about the whole song in its first rows. -/
def Local (j : Fin 4) (rows : ℕ) (score : Score) : Prop :=
  ∀ i : Fin score.parts.size, i % 4 = (j : ℕ) → ∀ row : Fin rows,
    ∀ note ∈ score.notes[score.parts[i].start.toNat + row]?, ¬ note.IsGlobal

instance (j : Fin 4) (rows : ℕ) (score : Score) : Decidable (score.Local j rows) :=
  inferInstanceAs (Decidable (∀ _ : Fin _, _))

variable {j k : Fin 4} {a b : Score} {rows : ℕ}

theorem sameBut_set (a : Score) {i : ℕ} (hi : i % 4 = (j : ℕ)) (part : Part) :
    a.SameBut j { a with parts := a.parts.setIfInBounds i part } := by
  refine ⟨rfl, fun i' hi' => ?_⟩
  have hne : i ≠ i' := fun heq => hi' (heq ▸ hi)
  exact Array.getElem?_setIfInBounds_ne hne

/-- Parts lie four to a step, even where a position wraps. -/
theorem position_mod (step : ℕ) (k : Fin 4) :
    Word.position (step * partsPerStep + k) % 4 = k := by
  have := k.isLt
  unfold Word.position partsPerStep
  rw [Nat.mod_mod_of_dvd _ (by decide)]
  omega

/-- The other channels have the same rows. -/
theorem SameBut.row_eq (h : a.SameBut j b) (hk : k ≠ j) (step row : ℕ) :
    b.row step k row = a.row step k row := by
  have hnote : b.note? = a.note? := by rw [h.rest]; rfl
  have hpart : b.part? step k = a.part? step k := by
    unfold part?
    rw [h.parts]
    rw [position_mod]
    exact fun heq => hk (Fin.ext heq)
  rw [Score.row, Score.row, hpart, hnote]

/-- A track never looks at the parts itself. -/
theorem SameBut.track_eq (h : a.SameBut j b) :
    Track.play b = Track.play a ∧ Track.refill b = Track.refill a ∧ Track.tick b = Track.tick a := by
  rw [h.rest]
  exact ⟨rfl, rfl, rfl⟩

/-- **A channel that keeps to itself asks nothing of the song.** -/
theorem Local.directive (h : a.Local j rows) {row : ℕ} (hrow : row < rows) (hrows : rows ≤ 65536)
    (step : ℕ) : Directive.ofNote (a.row step j row).2 = .nothing := by
  have hblank : ¬ Note.blank.IsGlobal := by decide
  refine Directive.ofNote_of_not_isGlobal ?_
  unfold Score.row
  cases hpart : a.part? step j with
  | none => exact hblank
  | some part =>
    dsimp only
    cases hnote : a.note? part row with
    | none => exact hblank
    | some note =>
      rw [part?, if_pos (show (j : ℕ) < partsPerStep from j.isLt)] at hpart
      rw [note?, Word.position_of_lt (by have := part.start.toNat_lt; omega)] at hnote
      obtain ⟨hi, rfl⟩ := Array.getElem?_eq_some_iff.1 hpart
      exact h ⟨_, hi⟩ (position_mod step j) ⟨row, hrow⟩ note hnote

end Score

/-! ## Outputs and frames -/

/-- The output that a channel goes to. -/
def Outputs.outputOf : Outputs → Fin 4 → ℕ
  | .mono, _ => 0
  | .stereo, j => if j.val = 0 ∨ j.val = 3 then 0 else 1
  | .quad, j => j

/-- Frames that have the samples of all outputs but one in common. -/
def Frame.SameBut (n : ℕ) (f g : Frame) : Prop :=
  ∀ i ≠ n, g.samples[i]? = f.samples[i]?

theorem Frame.toList_ofList (xs : List Float) :
    (ofList xs).samples.toList = xs.map (limitFloat (-1.0) 1.0) := by
  have hfold (xs : List Float) (f : Frame) :
      (xs.foldl push f).samples.toList = f.samples.toList ++ xs.map (limitFloat (-1.0) 1.0) := by
    induction xs generalizing f with
    | nil => exact (List.append_nil _).symm
    | cons x xs ih =>
      rw [List.foldl_cons, ih, push, Array.toList_push, List.append_assoc]
      rfl
  exact hfold xs empty

theorem Frame.sameBut_ofList {n : ℕ} {xs ys : List Float} (h : ∀ i ≠ n, ys[i]? = xs[i]?) :
    SameBut n (ofList xs) (ofList ys) := by
  intro i hi
  rw [← Array.getElem?_toList, ← Array.getElem?_toList, toList_ofList, toList_ofList,
    List.getElem?_map, List.getElem?_map, h i hi]

namespace Mixer

variable {j : Fin 4} {outputs : Outputs} {m m' : Mixer}

/-- Mixers that have everything in common but a channel and the filter of its output. -/
structure SameBut (outputs : Outputs) (j : Fin 4) (m m' : Mixer) : Prop where
  rest : m' = { m with channels := m'.channels, filters := m'.filters }
  channels : ∀ k ≠ j, m'.channels.get k = m.channels.get k
  filters : ∀ i : Fin 4, (i : ℕ) ≠ outputs.outputOf j → m'.filters.get i = m.filters.get i

theorem SameBut.exists_eq (h : m.SameBut outputs j m') :
    ∃ channels' filters', m' = { m with channels := channels', filters := filters' } :=
  ⟨_, _, h.rest⟩

theorem SameBut.refl (outputs : Outputs) (j : Fin 4) (m : Mixer) : m.SameBut outputs j m :=
  ⟨rfl, fun _ _ => rfl, fun _ _ => rfl⟩

/-- Both mixers may get new channels, if these too are the same but for the one. -/
theorem SameBut.setChannels (h : m.SameBut outputs j m') {cs cs' : Vector Channel 4}
    (hcs : ∀ k ≠ j, cs'.get k = cs.get k) :
    SameBut outputs j { m with channels := cs } { m' with channels := cs' } := by
  obtain ⟨channels', filters', rfl⟩ := h.exists_eq
  exact ⟨rfl, hcs, h.filters⟩

/-- A channel is heard at its own output only. -/
theorem mix_sameBut {level level' : Fin 4 → Float} (h : ∀ k ≠ j, level' k = level k) {i : ℕ}
    (hi : i ≠ outputs.outputOf j) : (mix outputs level')[i]? = (mix outputs level)[i]? := by
  cases outputs with
  | mono =>
    obtain ⟨i, rfl⟩ := Nat.exists_eq_succ_of_ne_zero hi
    rw [mix, mix, List.getElem?_cons_succ, List.getElem?_cons_succ]
  | stereo =>
    unfold mix
    by_cases hj : j.val = 0 ∨ j.val = 3
    · -- the inner channels make the right side
      have h1 : level' 1 = level 1 := h 1 (by omega)
      have h2 : level' 2 = level 2 := h 2 (by omega)
      rw [Outputs.outputOf, if_pos hj] at hi
      obtain ⟨i, rfl⟩ := Nat.exists_eq_succ_of_ne_zero hi
      rw [h1, h2, List.getElem?_cons_succ, List.getElem?_cons_succ]
    · have h0 : level' 0 = level 0 := h 0 (by omega)
      have h3 : level' 3 = level 3 := h 3 (by omega)
      rw [Outputs.outputOf, if_neg hj] at hi
      rcases i with _ | _ | i
      · rw [h0, h3, List.getElem?_cons_zero, List.getElem?_cons_zero]
      · exact absurd rfl hi
      · rw [List.getElem?_cons_succ, List.getElem?_cons_succ, List.getElem?_cons_succ,
          List.getElem?_cons_succ]
  | quad =>
    have hlist (l : Fin 4 → Float) : mix .quad l = List.ofFn l := by simp [mix, List.ofFn_succ]
    rw [hlist, hlist, List.getElem?_ofFn, List.getElem?_ofFn]
    split
    · rename_i hlt
      rw [h ⟨i, hlt⟩ fun heq => hi (by rw [Outputs.outputOf, ← heq])]
    · rfl

theorem SameBut.onMixer (h : m.SameBut outputs j m') (d : Directive) :
    (d.onMixer m).SameBut outputs j (d.onMixer m') := by
  obtain ⟨channels', filters', rfl⟩ := h.exists_eq
  cases d <;> exact ⟨rfl, h.channels, h.filters⟩

theorem SameBut.foldl_onMixer (h : m.SameBut outputs j m') (ds : List Directive) :
    (ds.foldl (fun m d => d.onMixer m) m).SameBut outputs j
      (ds.foldl (fun m d => d.onMixer m) m') := by
  induction ds generalizing m m' with
  | nil => exact h
  | cons d ds ih => exact ih (h.onMixer d)

theorem SameBut.level_eq (h : m.SameBut outputs j m') {k : Fin 4} (hk : k ≠ j) :
    m'.level k = m.level k := by
  have hmaster : m'.master = m.master := by rw [h.rest]
  rw [level, level, h.channels k hk, hmaster]

theorem get_feed (m : Mixer) (xs : List Float) (i : Fin 4) :
    (m.feed xs).filters.get i = xs[(i : ℕ)]?.elim (m.filters.get i) (m.filters.get i).feed := by
  simp only [feed, Vector.get_eq_getElem, Vector.getElem_mapIdx]
  cases xs[(i : ℕ)]? <;> rfl

/-- What an output sends when its filter is on. -/
theorem getElem?_filtered (m : Mixer) (n i : ℕ) :
    ((m.filters.toList.take n).map LowPass.output)[i]? =
      if h : i < 4 then if i < n then some (m.filters.get ⟨i, h⟩).output else none else none := by
  rw [List.getElem?_map, List.getElem?_take]
  split
  · split <;> simp [Vector.get_eq_getElem, *]
  · split <;> rfl

/-- **A frame differs in the output of the channel only**, and so do the filters after it. -/
theorem SameBut.rendered (h : m.SameBut outputs j m') :
    Frame.SameBut (outputs.outputOf j) (m.render outputs).1 (m'.render outputs).1 ∧
      (m.render outputs).2.SameBut outputs j (m'.render outputs).2 := by
  have hmix {i : ℕ} (hi : i ≠ outputs.outputOf j) :
      (mix outputs m'.level)[i]? = (mix outputs m.level)[i]? :=
    mix_sameBut (fun k hk => h.level_eq hk) hi
  have hfilters (i : Fin 4) (hi : (i : ℕ) ≠ outputs.outputOf j) :
      (m'.feed (mix outputs m'.level)).filters.get i =
        (m.feed (mix outputs m.level)).filters.get i := by
    rw [get_feed, get_feed, hmix hi, h.filters i hi]
  have hon : m'.isFiltering = m.isFiltering := by rw [h.rest]; rfl
  have hlength : (mix outputs m'.level).length = (mix outputs m.level).length := by
    rw [length_mix, length_mix]
  unfold render
  rw [hon]
  dsimp only
  split
  · refine ⟨Frame.sameBut_ofList fun i hi => ?_, ⟨?_, h.channels, hfilters⟩⟩
    · rw [getElem?_filtered, getElem?_filtered, hlength]
      split
      · rename_i hlt
        rw [hfilters ⟨i, hlt⟩ hi]
      · rfl
    · obtain ⟨channels', filters', rfl⟩ := h.exists_eq
      rfl
  · exact ⟨Frame.sameBut_ofList fun i hi => hmix hi, h⟩

end Mixer

/-! ## Songs side by side -/

namespace Sequencer

variable {j : Fin 4} {looping : Bool} {s s' q : Sequencer} {f : Frame} {rows : ℕ}

/-- Songs that have everything in common but one channel: its parts, its track and what is heard of
it. -/
structure SameBut (j : Fin 4) (s s' : Sequencer) : Prop where
  rest : s' = { s with score := s'.score, tracks := s'.tracks, mixer := s'.mixer }
  score : s.score.SameBut j s'.score
  tracks : ∀ k ≠ j, s'.tracks.get k = s.tracks.get k
  mixer : s.mixer.SameBut s.setup.outputs j s'.mixer

theorem SameBut.exists_eq (h : s.SameBut j s') :
    ∃ score' tracks' mixer', s' = { s with score := score', tracks := tracks', mixer := mixer' } :=
  ⟨_, _, _, h.rest⟩

/-- A song whose next row asks nothing in a channel. -/
def IsLocal (j : Fin 4) (s : Sequencer) : Prop :=
  Directive.ofNote (s.row.get j).2 = .nothing

theorem SameBut.get_row (h : s.SameBut j s') {k : Fin 4} (hk : k ≠ j) :
    s'.row.get k = s.row.get k := by
  have hplace : s'.progress = s.progress := by rw [h.rest]
  rw [row, row, Vector.get_ofFn, Vector.get_ofFn, hplace, h.score.row_eq hk]

/-- **Both rows ask the same of the song.** -/
theorem SameBut.directives_eq (h : s.SameBut j s') (hs : s.IsLocal j) (hs' : s'.IsLocal j) :
    s'.directives = s.directives := by
  have hnote (k : Fin 4) : Directive.ofNote (s'.row.get k).2 = .ofNote (s.row.get k).2 := by
    by_cases hk : k = j
    · rw [hk]
      exact hs'.trans hs.symm
    · rw [h.get_row hk]
  unfold directives
  apply List.ext_getElem
  · simp
  · intro i hi hi'
    have hlt : i < 4 := by simpa using hi
    simpa [Vector.get_eq_getElem] using hnote ⟨i, hlt⟩

/-- The other channels play the same notes. -/
theorem SameBut.get_played (h : s.SameBut j s') {k : Fin 4} (hk : k ≠ j) :
    s'.played.get k = s.played.get k := by
  have htime : s'.time = s.time := by rw [h.rest]; rfl
  rw [Sequencer.get_played, Sequencer.get_played, h.get_row hk, h.tracks k hk,
    h.mixer.channels k hk, htime, h.score.track_eq.1]

theorem SameBut.rowPlayed (h : s.SameBut j s') (hs : s.IsLocal j) (hs' : s'.IsLocal j) :
    (s.playRow looping).SameBut j (s'.playRow looping) := by
  have hsame := h.directives_eq hs hs'
  have hplayed {α : Type} (g : Track × Channel → α) (k : Fin 4) (hk : k ≠ j) :
      (s'.played.map g).get k = (s.played.map g).get k := by
    rw [Vector.get_map, Vector.get_map, h.get_played hk]
  refine ⟨?_, h.score, hplayed Prod.fst, ?_⟩
  · unfold playRow playRowBy
    dsimp only
    rw [hsame]
    obtain ⟨score', tracks', mixer', rfl⟩ := h.exists_eq
    rfl
  · unfold playRow playRowBy
    dsimp only
    rw [hsame]
    exact (h.mixer.setChannels (hplayed Prod.snd)).foldl_onMixer _

theorem SameBut.moved (h : s.SameBut j s') (hs : s.endFrame = none → s.IsLocal j ∧ s'.IsLocal j)
    (looping : Bool) : (s.moved looping).SameBut j (s'.moved looping) := by
  obtain ⟨hi, he, hp⟩ : s'.isInterrupt = s.isInterrupt ∧ s'.endFrame = s.endFrame ∧
      s'.progress = s.progress := by
    rw [h.rest]
    exact ⟨rfl, rfl, rfl⟩
  unfold Sequencer.moved
  rw [hi, he]
  split
  · rename_i hmoves
    have hcounted : SameBut j { s with progress := s.progress.counted }
        { s' with progress := s'.progress.counted } := by
      obtain ⟨score', tracks', mixer', rfl⟩ := h.exists_eq
      exact ⟨rfl, h.score, h.tracks, h.mixer⟩
    obtain ⟨hlocal, hlocal'⟩ := hs (by simpa using (Bool.and_eq_true_iff.1 hmoves).2)
    rw [advance_eq, advance_eq, hp]
    rw [hp] at hcounted
    split
    · exact hcounted.rowPlayed hlocal (by rw [← hp]; exact hlocal')
    · exact hcounted
  · exact h

theorem SameBut.sought (h : s.SameBut j s') : s.seek.SameBut j s'.seek := by
  have htrack := h.score.track_eq.2.1
  obtain ⟨ht, hclock⟩ : s'.time = s.time ∧ s'.mixer.clock = s.mixer.clock := by
    constructor
    · rw [h.rest]; rfl
    · rw [h.mixer.rest]
  refine ⟨?_, h.score, h.tracks, h.mixer.setChannels fun k hk => ?_⟩
  · obtain ⟨score', tracks', mixer', rfl⟩ := h.exists_eq
    rfl
  · rw [get_zipWith, get_zipWith, h.tracks k hk, h.mixer.channels k hk, ht, hclock]
    simp only [Track.refillBy_start, htrack]

theorem SameBut.ticked (h : s.SameBut j s') : s.tick.SameBut j s'.tick := by
  have htrack := h.score.track_eq.2.2
  have hp : s'.progress = s.progress := by rw [h.rest]
  have hticked {α : Type} (g : Track × Channel → α) (k : Fin 4) (hk : k ≠ j) :
      ((Vector.zipWith (Track.tick s'.score s'.progress.speed) s'.tracks s'.mixer.channels).map g).get
          k =
        ((Vector.zipWith (Track.tick s.score s.progress.speed) s.tracks s.mixer.channels).map g).get
          k := by
    rw [Vector.get_map, Vector.get_map, get_zipWith, get_zipWith, h.tracks k hk,
      h.mixer.channels k hk, hp, htrack]
  refine ⟨?_, h.score, hticked Prod.fst, h.mixer.setChannels (hticked Prod.snd)⟩
  obtain ⟨score', tracks', mixer', rfl⟩ := h.exists_eq
  rfl

/-- **A frame leaves the songs equal but for one channel**, if that channel asks nothing of the
song, and differs in the output of that channel only. -/
theorem SameBut.rendered (h : s.SameBut j s') (hs : s.endFrame = none → s.IsLocal j ∧ s'.IsLocal j)
    (hr : s.renderFrame looping = some (f, q)) :
    ∃ f' q', s'.renderFrame looping = some (f', q') ∧
      Frame.SameBut (s.setup.outputs.outputOf j) f f' ∧ q.SameBut j q' := by
  have hopen := (follows_of_renderFrame hr).unfinished
  obtain ⟨hopen', hi, hsetup⟩ : s'.isFinished = false ∧ s'.isInterrupt = s.isInterrupt ∧
      s'.setup = s.setup := by
    rw [h.rest]
    exact ⟨hopen, rfl, rfl⟩
  have hsound : ((s.moved looping).sounded s.isInterrupt).SameBut j
      ((s'.moved looping).sounded s.isInterrupt) := by
    unfold sounded
    split
    · exact (h.moved hs looping).sought.ticked
    · exact (h.moved hs looping).sought
  -- the outputs are those of the settings, which no frame changes
  have hq := (sounded_spec s.isInterrupt (s.moved looping)).1.trans (reset_moved looping s)
  rw [renderFrame_of_unfinished looping hopen] at hr
  rw [renderFrame_of_unfinished looping hopen', hi]
  generalize (s.moved looping).sounded s.isInterrupt = r at hr hsound hq
  generalize (s'.moved looping).sounded s.isInterrupt = r' at hsound
  obtain ⟨rfl, rfl⟩ := Prod.mk.inj (Option.some.inj hr)
  obtain ⟨hframe, hmixer⟩ := hsound.mixer.rendered
  rw [← setup_eq_of_reset_eq hq]
  obtain ⟨score', tracks', mixer', rfl⟩ := hsound.exists_eq
  exact ⟨_, _, rfl, hframe, rfl, hsound.score, hsound.tracks, hmixer⟩

theorem score_eq_of_reset_eq (h : s'.reset = s.reset) : s'.score = s.score := by
  change s'.reset.score = s.reset.score
  rw [h]

/-- Before the end every row that is played is one of those that keep to themselves. -/
theorem Steady.isLocal (h : s.Steady) (hlocal : s.score.Local j (Progress.stepRows s.song))
    (he : s.endFrame = none) : s.IsLocal j := by
  have hrows : Progress.stepRows s.song ≤ 65536 := by
    have := s.song.rows.toNat_lt
    unfold Progress.stepRows
    omega
  rw [IsLocal, row, Vector.get_ofFn]
  exact hlocal.directive (h.onTrack he).row hrows _

theorem SameBut.run (h : s.SameBut j s') (hsteady : s.Steady)
    (hs : s.score.Local j (Progress.stepRows s.song))
    (hs' : s'.score.Local j (Progress.stepRows s.song)) (flags : List Bool) :
    List.Forall₂ (Frame.SameBut (s.setup.outputs.outputOf j)) (run flags s).1 (run flags s').1 ∧
      (run flags s).2.SameBut j (run flags s').2 := by
  induction flags generalizing s s' with
  | nil => exact ⟨.nil, h⟩
  | cons looping flags ih =>
    have hsteady' : s'.Steady := by
      rw [h.rest]
      exact ⟨⟨hsteady.rate_ge, hsteady.rate_le, hsteady.irq_pos, hsteady.irq_le, hsteady.speed_pos,
        hsteady.speed_le⟩, hsteady.ahead, hsteady.onTrack⟩
    cases hr : s.renderFrame looping with
    | none =>
      -- both songs are at their end, which is the same
      have hend := (renderFrame_eq_none_iff looping s).1 hr
      have hend' : s'.isFinished = true := by
        rw [h.rest]
        exact hend
      rw [run_of_finished hend, run_of_finished hend']
      exact ⟨.nil, h⟩
    | some r =>
      have hsong : s'.song = s.song := by rw [h.rest]
      have hlocal (he : s.endFrame = none) : s.IsLocal j ∧ s'.IsLocal j := by
        refine ⟨hsteady.isLocal hs he, hsteady'.isLocal (hsong ▸ hs') ?_⟩
        rw [h.rest]
        exact he
      obtain ⟨f', q', hr', hframe, hnext⟩ := h.rendered hlocal hr
      have hf := follows_of_renderFrame hr
      have hf' := follows_of_renderFrame hr'
      rw [run_cons_of_some hr, run_cons_of_some hr']
      obtain ⟨hframes, hlast⟩ := ih hnext (hsteady.follows hf)
        (by rw [score_eq_of_reset_eq hf.reset, song_eq_of_reset_eq hf.reset]; exact hs)
        (by rw [score_eq_of_reset_eq hf'.reset, song_eq_of_reset_eq hf.reset]; exact hs')
      rw [setup_eq_of_reset_eq hf.reset] at hframes
      exact ⟨.cons hframe hframes, hlast⟩

variable {a b : Score} {index : ℕ} {setup : Setup} {s₀ : Sequencer}

/-- Whether a song can be started does not depend on the parts. -/
theorem start_sameBut (h₀ : start a index setup = .ok s₀) (hab : a.SameBut j b) :
    ∃ song, s₀ = atStart a song setup ∧ start b index setup = .ok (atStart b song setup) := by
  have hsongs : b.songs = a.songs := by rw [hab.rest]
  unfold start at h₀ ⊢
  rw [hsongs]
  split at h₀
  · cases h₀
  · split at h₀
    · cases h₀
    · rename_i song _
      split at h₀
      · cases h₀
      · cases h₀
        exact ⟨song, rfl, rfl⟩

/-- **Channels keep to themselves.** Two scores that differ in the parts of one channel only, and in
which no row that this channel can reach has a command about the whole song, can be started alike,
and are then played alike: after any frames, under any loop limit and flags, the songs stand at the
same place with the same speed, loops, end, master volume and filter switch. All other tracks and
channels are in the same states, and the frames differ in the output of the one channel only: in its
own output, on its side, or in the one output that there is. -/
theorem channels_apart (h₀ : start a index setup = .ok s₀) (hab : a.SameBut j b)
    (ha : a.Local j (max 1 s₀.song.rows.toNat)) (hb : b.Local j (max 1 s₀.song.rows.toNat))
    (limit : Option ℕ) (flags : List Bool) :
    ∃ s₀', start b index setup = .ok s₀' ∧
      let fs := (run flags (s₀.setLoopLimit limit)).1
      let fs' := (run flags (s₀'.setLoopLimit limit)).1
      let q := (run flags (s₀.setLoopLimit limit)).2
      let q' := (run flags (s₀'.setLoopLimit limit)).2
      q'.progress = q.progress ∧ q'.endFrame = q.endFrame ∧
      q'.mixer.master = q.mixer.master ∧ q'.mixer.useFilter = q.mixer.useFilter ∧
      (∀ k ≠ j, q'.tracks.get k = q.tracks.get k ∧
        q'.mixer.channels.get k = q.mixer.channels.get k) ∧
      List.Forall₂ (Frame.SameBut (setup.outputs.outputOf j)) fs fs' := by
  obtain ⟨song, rfl, h₀'⟩ := start_sameBut h₀ hab
  have hsteady := (start_eq_ok h₀).1.setLoopLimit limit
  have hsame : SameBut j ((atStart a song setup).setLoopLimit limit)
      ((atStart b song setup).setLoopLimit limit) :=
    ⟨rfl, hab, fun _ _ => rfl, .refl _ _ _⟩
  obtain ⟨hframes, hlast⟩ := hsame.run hsteady ha hb flags
  refine ⟨_, h₀', ?_, ?_, ?_, ?_, fun k hk => ⟨hlast.tracks k hk, hlast.mixer.channels k hk⟩,
    hframes⟩
  · rw [hlast.rest]
  · rw [hlast.rest]
  · rw [hlast.mixer.rest]
  · rw [hlast.mixer.rest]

/-- A row that sets the speed in the first channel and slides in the second. -/
def duet : Score :=
  { songs := #[⟨1, 1, 0, 0, 0, 200⟩]
    parts := #[⟨0, 0, 0⟩, ⟨1, 0, 0⟩, ⟨2, 0, 0⟩, ⟨2, 0, 0⟩]
    notes := #[⟨30, 1, 0x0F, 2⟩, ⟨30, 1, 0x01, 3⟩, ⟨0, 0, 0, 0⟩]
    instruments := #[{ (default : Instrument) with length := 2, volume := 64 }]
    samples := #[.bare #[10, 246, 20, 236, 30]] }

/-- The same row without its second channel. -/
def solo : Score :=
  { duet with parts := duet.parts.setIfInBounds 1 ⟨2, 0, 0⟩ }

theorem duet_apart :
    let setup : Setup := { rate := 2000, outputs := .stereo }
    let s₀ := atStart duet ⟨1, 1, 0, 0, 0, 200⟩ setup
    start duet 0 setup = .ok s₀ ∧ duet.SameBut 1 solo ∧ duet.Local 1 1 ∧ solo.Local 1 1 ∧
      ∃ s₀', start solo 0 setup = .ok s₀' ∧ ∀ flags : List Bool,
        List.Forall₂ (Frame.SameBut 1) (run flags (s₀.setLoopLimit (some 2))).1
          (run flags (s₀'.setLoopLimit (some 2))).1 := by
  intro setup s₀
  have hstart : start duet 0 setup = .ok s₀ := rfl
  have hsame : duet.SameBut 1 solo := duet.sameBut_set rfl _
  have hduet : duet.Local 1 1 := by decide
  have hsolo : solo.Local 1 1 := by decide
  refine ⟨hstart, hsame, hduet, hsolo, _, rfl, fun flags => ?_⟩
  obtain ⟨s₀', hs₀', -, -, -, -, -, hframes⟩ :=
    channels_apart hstart hsame hduet hsolo (some 2) flags
  cases hs₀'
  exact hframes

/-- A song whose steps have no rows; what it plays all the same is a blank row. -/
def void : Score :=
  { songs := #[⟨1, 0, 0, 0, 0, 200⟩]
    parts := Array.replicate 4 ⟨0, 0, 0⟩
    notes := #[⟨0, 0, 0, 0⟩, ⟨0, 0, 0x06, 10⟩] }

/-- The same song with a row in its first channel that sets the master volume. -/
def voiced : Score :=
  { void with parts := void.parts.setIfInBounds 0 ⟨1, 0, 0⟩ }

/-- The rows that a song has are not enough: the one row that is played of a step without any must
keep to itself as well. -/
theorem void_not_apart :
    let setup : Setup := { rate := 2000, outputs := .quad }
    let s₀ := atStart void ⟨1, 0, 0, 0, 0, 200⟩ setup
    let s₀' := atStart voiced ⟨1, 0, 0, 0, 0, 200⟩ setup
    start void 0 setup = .ok s₀ ∧ start voiced 0 setup = .ok s₀' ∧
      void.SameBut 0 voiced ∧ void.Local 0 s₀.song.rows.toNat ∧
      voiced.Local 0 s₀.song.rows.toNat ∧
      (run [false] s₀).2.mixer.master = 64 ∧ (run [false] s₀').2.mixer.master = 10 := by
  refine ⟨rfl, rfl, void.sameBut_set rfl _, ?_, ?_, ?_, ?_⟩
  · decide
  · decide
  · decide +kernel
  · decide +kernel

end Sequencer

end Chiptune
