import Mathlib
import Chiptune.Proofs.Normal

/-!
# What a job leaves behind

A job loads its input, works out what to store, opens the output and writes it, in this order. The code
of a run tells which of these was the first to fail, and with it what the run did to the disk.

* `Disk.Stored`: what a disk looks like after something was stored.
* `Shell.Job.Ending`: the ways a run ends; `Ending.run`, `ending_run`: **each run ends in the one way
  whose conditions hold.**
* `Shell.Job.code_tells`: the code of a run, what fails, and what is left on the disk.
-/

namespace Chiptune

/-! ## Storing -/

namespace Disk

variable {d : Disk} {path : String} {l : Location} {e : Entry} {content : Bytes} {fault : DiskFault}

/-- The place that is opened to store something at a path, and the entry there. -/
def opened (d : Disk) (path : String) : Except DiskFault (Location × Entry) :=
  (d.target path).bind fun l => (d.openAt l).map (l, ·)

theorem store_of_error (h : d.opened path = .error fault) (content : Bytes) :
    d.store path content = (some (.create fault), d) := by
  unfold opened at h
  unfold store storeAt
  cases htarget : d.target path with
  | error fault' =>
    rw [htarget] at h
    obtain rfl := Except.error.inj h
    rfl
  | ok l =>
    rw [htarget] at h
    cases hopen : d.openAt l with
    | error fault' =>
      simp only [Except.bind, hopen] at h
      obtain rfl := Except.error.inj h
      simp only [hopen]
    | ok e => simp only [Except.bind, hopen] at h; cases h

theorem opened_eq_ok (h : d.opened path = .ok (l, e)) :
    d.target path = .ok l ∧ d.openAt l = .ok e := by
  unfold opened at h
  cases htarget : d.target path with
  | error fault => rw [htarget] at h; cases h
  | ok l' =>
    rw [htarget] at h
    cases hopen : d.openAt l' with
    | error fault => simp only [Except.bind, hopen] at h; cases h
    | ok e' =>
      simp only [Except.bind, hopen] at h
      obtain ⟨rfl, rfl⟩ := Prod.mk.inj (Except.ok.inj h)
      exact ⟨rfl, hopen⟩

theorem store_of_refusal (h : d.opened path = .ok (l, e)) (hw : e.refusal? content = some fault) :
    d.store path content = (some (.write fault), d.set l (e.holding [])) := by
  obtain ⟨htarget, hopen⟩ := opened_eq_ok h
  simp only [store, htarget, storeAt, hopen, hw]

theorem store_of_opened (h : d.opened path = .ok (l, e)) (hw : e.refusal? content = none) :
    d.store path content = (none, d.set l (e.holding content)) := by
  obtain ⟨htarget, hopen⟩ := opened_eq_ok h
  simp only [store, htarget, storeAt, hopen, hw]

/-- An entry that is opened stands there already, or it is a file where nothing stands. -/
theorem openAt_eq_ok (h : d.openAt l = .ok e) :
    d.node? l = some (.entry e) ∨ d.node? l = none ∧ e = .file [] := by
  unfold openAt at h
  split at h
  · cases h
  · rename_i hnode
    split at h
    · cases h
    · exact .inl (Except.ok.inj h ▸ hnode)
  · rename_i hnode
    split at h
    · cases h
    · exact .inr ⟨hnode, (Except.ok.inj h).symm⟩

theorem free_of_openAt (h : d.openAt l = .ok e) : ∀ lock, d.node? l ≠ some (.folder lock) := by
  rintro lock hlock
  rcases openAt_eq_ok h with hentry | ⟨hnone, -⟩
  · cases hlock.symm.trans hentry
  · cases hlock.symm.trans hnone

/-- What holds of every entry that may stand at a location, and of a new file, holds of the one that is
opened there. -/
theorem of_openAt {p : Entry → Prop} (h : d.openAt l = .ok e)
    (hthere : ∀ e, d.node? l = some (.entry e) → p e) (hnew : p (.file [])) : p e := by
  rcases openAt_eq_ok h with hentry | ⟨-, rfl⟩
  · exact hthere e hentry
  · exact hnew

/-- No device that forgets what is written to it stands at a location. -/
def Keeps (d : Disk) (l : Location) : Prop :=
  ∀ e, d.node? l = some (.entry e) → e.keeps = true

/-- Nothing that stands at a location refuses to be read. -/
def Readable (d : Disk) (l : Location) : Prop :=
  ∀ e, d.node? l = some (.entry e) → e.reading = none

theorem readable_of_read (hread : d.read path = .ok content) (h : d.target path = .ok l) :
    d.Readable l := by
  intro e he
  rw [read, locate_of_target h] at hread
  simp only [Except.bind, he, Entry.read] at hread
  split at hread
  · cases hread
  · assumption

/-- **A disk after some content was stored at a path.** The file at the location of the path holds it
and nothing else; a device there is as it was, and so is whatever stands at other locations. -/
structure Stored (d : Disk) (path : String) (l : Location) (content : Bytes) (d' : Disk) : Prop where
  place : d.target path = .ok l
  file : d.Keeps l → d'.held l = content
  read : d.Keeps l → d.Readable l → d'.read path = .ok content
  device : ¬d.Keeps l → d'.node? l = d.node? l
  elsewhere : ∀ other, other ≠ l → d'.node? other = d.node? other
  home : d'.home = d.home

theorem stored_of_opened (h : d.opened path = .ok (l, e)) (content : Bytes) :
    d.Stored path l content (d.set l (e.holding content)) := by
  obtain ⟨htarget, hopen⟩ := opened_eq_ok h
  have hnode : (d.set l (e.holding content)).node? l = some (.entry (e.holding content)) := if_pos rfl
  have hkeeps (hk : d.Keeps l) : e.keeps = true := of_openAt hopen hk rfl
  refine ⟨htarget, fun hk => ?_, fun hk hr => ?_, fun hk => ?_, fun other hne => if_neg hne, rfl⟩
  · rw [held, hnode, Entry.holding, if_pos (hkeeps hk)]
  · have hreading : e.reading = none := of_openAt hopen hr rfl
    rw [read, locate_of_target (target_set (free_of_openAt hopen) htarget)]
    simp only [Except.bind, hnode]
    rw [Entry.holding, if_pos (hkeeps hk), Entry.read, hreading]
  · -- what forgets is not made by opening, so it was there before
    rcases openAt_eq_ok hopen with hentry | ⟨hnone, -⟩
    · have hforgets : e.keeps ≠ true := fun hkept => hk fun e' he' => by
        obtain rfl : e = e' := by simpa [hentry] using he'
        exact hkept
      rw [hnode, hentry, Entry.holding, if_neg hforgets]
    · exact absurd (fun e he => by simp [hnone] at he) hk

end Disk

/-! ## How a run ends -/

namespace Shell.Job

variable {j : Job} {d d' : Disk} {score : Score} {code : ℕ}

/-- The input of a job is a module with a score. -/
def Loads (j : Job) (d : Disk) (score : Score) : Prop :=
  ∃ file, d.read j.input = .ok file ∧ ModuleFile.decode file = .ok score

/-- Whether the extension of a path is `raw` or `pcm`, in any case. -/
def wantsSamples (path : String) : Bool :=
  (Path.extension? path).any fun ext => ext.toLower = "raw" || ext.toLower = "pcm"

/-- What a job has to store and where, if it has to store anything: the samples of a song with the sign
that was asked for, its WAV file, or the saved module. -/
def order? (j : Job) (score : Score) : Option (String × Except SessionFault Bytes) :=
  match j with
  | .convert _ output how =>
    some (output, (if wantsSamples output then
        Session.render ⟨score⟩ how.song how.setup how.loops how.unsignedRaw
      else Session.wav ⟨score⟩ how.song how.setup how.loops).map Array.toList)
  | .decode _ output => some (output, Session.save ⟨score⟩)
  | .info _ => none

theorem sameLetters_eq (a b : String) : Path.sameLetters a b = decide (a.toLower = b.toLower) := by
  simp [Path.sameLetters, String.toLower, ← String.toList_inj]

theorem isRaw_eq (path : String) : isRaw path = wantsSamples path := by
  have hraw : "raw".toLower = "raw" := by simp [String.toLower, ← String.toList_inj]
  have hpcm : "pcm".toLower = "pcm" := by simp [String.toLower, ← String.toList_inj]
  unfold isRaw wantsSamples
  cases Path.extension? path with
  | none => rfl
  | some ext => simp only [Option.any_some, sameLetters_eq, hraw, hpcm]

/-- What a job makes of a loaded score is what it has to store. -/
theorem produceFrom_eq (j : Job) (score : Score) :
    j.produceFrom ⟨score⟩ = match j.order? score with
      | none => .ok (.text (Session.summary ⟨score⟩))
      | some (output, made) => made.map (.file output) := by
  cases j with
  | convert input output how =>
    simp only [produceFrom, rendered, order?, isRaw_eq]
    cases (if wantsSamples output then
        Session.render ⟨score⟩ how.song how.setup how.loops how.unsignedRaw
      else Session.wav ⟨score⟩ how.song how.setup how.loops) <;> rfl
  | decode input output => rfl
  | info input => rfl

theorem loadFile_of_loads (h : j.Loads d score) :
    Session.loadFile (d.read j.input) = .ok ⟨score⟩ := by
  obtain ⟨file, hread, hdecode⟩ := h
  rw [hread, Session.loadFile, Session.load, hdecode]

/-- An input that is not a module is refused. -/
theorem loadFile_of_not (h : ¬∃ score, j.Loads d score) :
    ∃ fault, Session.loadFile (d.read j.input) = .error fault := by
  unfold Session.loadFile Session.load
  cases hread : d.read j.input with
  | error fault => exact ⟨_, rfl⟩
  | ok file =>
    cases hdecode : ModuleFile.decode file with
    | error fault => exact ⟨.load fault, by simp only [hdecode]⟩
    | ok score => exact absurd ⟨score, file, hread, hdecode⟩ h

/-- The ways in which a job ends: with a code, and with a disk that is changed or not. -/
inductive Ending (j : Job) (d : Disk) : ℕ → Disk → Prop
  | unread (h : ¬∃ score, j.Loads d score) : Ending j d 1 d
  | shown {score : Score} (h : j.Loads d score) (ho : j.order? score = none) : Ending j d 0 d
  | unmade {score : Score} {output : String} {fault : SessionFault} (h : j.Loads d score)
      (ho : j.order? score = some (output, .error fault)) : Ending j d 2 d
  | unopened {score : Score} {output : String} {content : Bytes} {fault : DiskFault}
      (h : j.Loads d score) (ho : j.order? score = some (output, .ok content))
      (hopen : d.opened output = .error fault) : Ending j d 3 d
  | unwritten {score : Score} {output : String} {content : Bytes} {l : Location} {e : Entry}
      {fault : DiskFault} (h : j.Loads d score) (ho : j.order? score = some (output, .ok content))
      (hopen : d.opened output = .ok (l, e)) (hw : e.refusal? content = some fault) :
      Ending j d 4 (d.set l (e.holding []))
  | stored {score : Score} {output : String} {content : Bytes} {l : Location} {e : Entry}
      (h : j.Loads d score) (ho : j.order? score = some (output, .ok content))
      (hopen : d.opened output = .ok (l, e)) (hw : e.refusal? content = none) :
      Ending j d 0 (d.set l (e.holding content))

/-- What a job with a loaded score has to store is produced. -/
theorem produce_of_loads (h : j.Loads d score) :
    j.produce (d.read j.input) = match j.order? score with
      | none => .ok (.text (Session.summary ⟨score⟩))
      | some (_, .error fault) => .error (.process fault)
      | some (output, .ok content) => .ok (.file output content) := by
  rw [produce, loadFile_of_loads h]
  dsimp only
  rw [produceFrom_eq]
  cases j.order? score with
  | none => rfl
  | some order =>
    obtain ⟨output, made⟩ := order
    cases made <;> rfl

/-- **A way to end is the way in which the run ends.** -/
theorem Ending.run (h : j.Ending d code d') : (j.run d).1.code = code ∧ (j.run d).2 = d' := by
  unfold Job.run
  cases h with
  | unread h =>
    obtain ⟨fault, hfault⟩ := loadFile_of_not h
    simp only [produce, hfault]
    exact ⟨rfl, trivial⟩
  | shown h ho =>
    simp only [produce_of_loads h, ho]
    exact ⟨rfl, trivial⟩
  | unmade h ho =>
    simp only [produce_of_loads h, ho]
    exact ⟨rfl, trivial⟩
  | unopened h ho hopen =>
    simp only [produce_of_loads h, ho, Disk.store_of_error hopen]
    exact ⟨rfl, trivial⟩
  | unwritten h ho hopen hw =>
    simp only [produce_of_loads h, ho, Disk.store_of_refusal hopen hw]
    exact ⟨rfl, trivial⟩
  | stored h ho hopen hw =>
    simp only [produce_of_loads h, ho, Disk.store_of_opened hopen hw]
    exact ⟨rfl, trivial⟩

theorem exists_ending (j : Job) (d : Disk) : ∃ code d', j.Ending d code d' := by
  by_cases h : ∃ score, j.Loads d score
  swap
  · exact ⟨_, _, .unread h⟩
  obtain ⟨score, h⟩ := h
  match ho : j.order? score with
  | none => exact ⟨_, _, .shown h ho⟩
  | some (output, .error fault) => exact ⟨_, _, .unmade h ho⟩
  | some (output, .ok content) =>
    match hopen : d.opened output with
    | .error fault => exact ⟨_, _, .unopened h ho hopen⟩
    | .ok (l, e) =>
      cases hw : e.refusal? content with
      | some fault => exact ⟨_, _, .unwritten h ho hopen hw⟩
      | none => exact ⟨_, _, .stored h ho hopen hw⟩

/-- Every run ends in one of the ways. -/
theorem ending_run (j : Job) (d : Disk) : j.Ending d (j.run d).1.code (j.run d).2 := by
  obtain ⟨code, d', h⟩ := exists_ending j d
  obtain ⟨rfl, rfl⟩ := h.run
  exact h

theorem Ending.code_eq {code' : ℕ} {d'' : Disk} (h : j.Ending d code d')
    (h' : j.Ending d code' d'') : code = code' :=
  h.run.1.symm.trans h'.run.1

/-- Without an output that was opened, nothing is changed. -/
theorem Ending.disk_eq (h : j.Ending d code d')
    (hcode : 1 ≤ code ∧ code ≤ 3 ∨ ∃ input, j = .info input) : d' = d := by
  rcases hcode with ⟨hlow, hhigh⟩ | ⟨input, rfl⟩
  · cases h with
    | unread | unmade | unopened => rfl
    | shown | stored => cases hlow
    | unwritten => omega
  · cases h with
    | unread | shown => rfl
    | unmade h ho | unopened h ho | unwritten h ho | stored h ho => cases ho

/-- What had to be stored by a job that did not fail is stored. -/
theorem Ending.stored_of_zero (h : j.Ending d 0 d') :
    ∃ score, j.Loads d score ∧ ∀ output made, j.order? score = some (output, made) →
      ∃ content l, made = .ok content ∧ d.Stored output l content d' ∧
        (output = j.input → d.Readable l) := by
  cases h with
  | shown h ho =>
    refine ⟨_, h, ?_⟩
    intro output made hmade
    cases ho.symm.trans hmade
  | stored h ho hopen hw =>
    refine ⟨_, h, ?_⟩
    intro output made hmade
    obtain ⟨rfl, rfl⟩ := Prod.mk.inj (Option.some.inj (ho.symm.trans hmade))
    refine ⟨_, _, rfl, Disk.stored_of_opened hopen _, ?_⟩
    rintro rfl
    obtain ⟨file, hread, -⟩ := h
    exact Disk.readable_of_read hread (Disk.opened_eq_ok hopen).1

/-- **The code of a run tells what was left behind.** It is 1 exactly if the input is no module that
can be read; 2 if it is one, and its song cannot be rendered or its score not saved; 3 if only the
output cannot be made; 4 if it is made and only not written; and 0 otherwise. With 1, 2 or 3, and
whenever only a summary is asked for, the disk is as it was. With 0, what was asked for is stored in
the output and the rest of the disk is as it was; if the output is the input, what was stored can be
read. -/
theorem code_tells (j : Job) (d : Disk) :
    let code := (j.run d).1.code
    let d' := (j.run d).2
    (code = 1 ↔ ¬∃ score, j.Loads d score) ∧
    (code = 2 ↔ ∃ score, j.Loads d score ∧
      ∃ output fault, j.order? score = some (output, .error fault)) ∧
    (code = 3 ↔ ∃ score, j.Loads d score ∧
      ∃ output content, j.order? score = some (output, .ok content) ∧
      ∃ fault, d.opened output = .error fault) ∧
    (code = 4 ↔ ∃ score, j.Loads d score ∧
      ∃ output content, j.order? score = some (output, .ok content) ∧
      ∃ l e, d.opened output = .ok (l, e) ∧ ∃ fault, e.refusal? content = some fault) ∧
    code ≤ 4 ∧
    ((1 ≤ code ∧ code ≤ 3 ∨ ∃ input, j = .info input) → d' = d) ∧
    (code = 0 → ∃ score, j.Loads d score ∧ ∀ output made, j.order? score = some (output, made) →
      ∃ content l, made = .ok content ∧ d.Stored output l content d' ∧
        (output = j.input → d.Readable l)) := by
  intro code d'
  have hending : j.Ending d code d' := ending_run j d
  clear_value code d'
  refine ⟨⟨?_, ?_⟩, ⟨?_, ?_⟩, ⟨?_, ?_⟩, ⟨?_, ?_⟩, ?_, hending.disk_eq, ?_⟩
  · rintro rfl
    cases hending with
    | unread h => exact h
  · intro h
    exact hending.code_eq (.unread h)
  · rintro rfl
    cases hending with
    | unmade h ho => exact ⟨_, h, _, _, ho⟩
  · rintro ⟨score, h, output, fault, ho⟩
    exact hending.code_eq (.unmade h ho)
  · rintro rfl
    cases hending with
    | unopened h ho hopen => exact ⟨_, h, _, _, ho, _, hopen⟩
  · rintro ⟨score, h, output, content, ho, fault, hopen⟩
    exact hending.code_eq (.unopened h ho hopen)
  · rintro rfl
    cases hending with
    | unwritten h ho hopen hw => exact ⟨_, h, _, _, ho, _, _, hopen, _, hw⟩
  · rintro ⟨score, h, output, content, ho, l, e, hopen, fault, hw⟩
    exact hending.code_eq (.unwritten h ho hopen hw)
  · cases hending <;> decide
  · rintro rfl
    exact hending.stored_of_zero

end Shell.Job

end Chiptune
