import DrakeSyntax.Command.Files

/-!
# Writing one file

A file is written to the place that its path leads to (`FileSet.Writable`). No directory appears or
goes away by that: those on the way to the place exist already. So every other path leads where it
did, and `FileSet.exists_write` says all of what is there afterwards: the new text behind
each path that leads to that place, and what was there before behind any other.
-/

namespace DrakeSyntax

namespace FileSet

variable {fs fs' : FileSet} {place directory : Path} {path text : String} {bytes : ByteArray}

/-- A file can be written at the path: the directories on its way exist, and it does not lead to one
of them. -/
def Writable (fs : FileSet) (path : String) : Prop :=
  ∃ place, fs.locate path = .ok place ∧ fs.hasDirectory place = false

/-- The files of the second set are those of the first one but for one file, which holds a text. A
path leads to that file if it led to the same place before. -/
structure Overwrites (fs : FileSet) (path text : String) (fs' : FileSet) : Prop where
  content_eq {other : String} : fs.locate other = fs.locate path →
    fs'.content? other = some text.toUTF8
  content_of_ne {other : String} : fs.locate other ≠ fs.locate path →
    fs'.content? other = fs.content? other

/-! ### The way to a place -/

/-- All directories that hold the place exist. -/
def Reaches (fs : FileSet) (place : Path) : Prop :=
  ∀ directory, directory <+: place → directory ≠ place → fs.hasDirectory directory

theorem reaches_concat {part : List Char} (h : fs.Reaches directory)
    (hexists : fs.hasDirectory directory) : fs.Reaches (directory ++ [part]) := by
  intro d hd hne
  rcases List.prefix_concat_iff.1 hd with rfl | hd
  · exact absurd rfl hne
  · by_cases heq : d = directory
    · rwa [heq]
    · exact h d hd heq

theorem reaches_parent (h : fs.Reaches directory) (hexists : fs.hasDirectory directory) :
    fs.Reaches directory.parent := by
  unfold Path.parent
  split
  · exact reaches_concat h hexists
  · exact reaches_concat h hexists
  · exact h
  · -- what holds the parent holds the directory
    intro d hd hne
    have hprefix := List.dropLast_prefix directory
    refine h d (hd.trans hprefix) fun heq => hne ?_
    rw [heq] at hd ⊢
    exact hd.eq_of_length_le hprefix.length_le

theorem reaches_enter {part : List Char} (h : fs.Reaches directory)
    (hexists : fs.hasDirectory directory) : fs.Reaches (directory.enter part) := by
  unfold Path.enter
  split
  · exact reaches_parent h hexists
  · split
    · exact reaches_concat h hexists
    · exact h

theorem reaches_follow {parts : List (List Char)} (h : fs.Reaches directory)
    (hfollow : fs.follow directory parts = .ok place) : fs.Reaches place := by
  induction parts generalizing directory with
  | nil =>
    cases hfollow
    exact h
  | cons part parts ih =>
    unfold follow at hfollow
    split at hfollow
    · exact ih (reaches_enter h ‹_›) hfollow
    · split at hfollow
      · cases hfollow
      · cases hfollow

theorem reaches_beginning (fs : FileSet) (path : String) :
    fs.Reaches (Path.beginning path).1 := by
  have habove (d : Path) (hd : d <+: [[]]) : fs.hasDirectory d := by
    rcases List.prefix_cons_iff.1 hd with rfl | ⟨rest, rfl, hrest⟩
    · rfl
    · rw [List.prefix_nil.1 hrest]
      rfl
  intro d hd _
  unfold Path.beginning at hd
  split at hd
  · exact habove d hd
  · exact habove d (hd.trans (List.nil_prefix))

theorem reaches_of_locate (h : fs.locate path = .ok place) : fs.Reaches place := by
  unfold locate at h
  split at h
  · cases h
  · exact reaches_follow (reaches_beginning fs path) h

/-! ### What is there after a file is put -/

theorem lookup_put (place other : Path) :
    (fs.put place bytes).files.lookup other =
      if other = place then some bytes else fs.files.lookup other := by
  have hothers (hne : other ≠ place) :
      (fs.files.filter (·.1 != place)).lookup other = fs.files.lookup other := by
    induction fs.files with
    | nil => rfl
    | cons f files ih =>
      obtain ⟨p, b⟩ := f
      by_cases hp : p = place
      · rw [List.filter_cons_of_neg (by simpa using hp), ih, List.lookup_cons, hp,
          beq_false_of_ne hne]
      · rw [List.filter_cons_of_pos (by simpa using hp), List.lookup_cons, List.lookup_cons, ih]
  simp only [put, List.lookup_cons]
  by_cases h : other = place
  · rw [if_pos h, beq_iff_eq.2 h]
  · rw [if_neg h, beq_false_of_ne h, hothers h]

/-- A file that is put where a way leads to makes no directory. -/
theorem hasDirectory_put (h : fs.Reaches place) (directory : Path) :
    (fs.put place bytes).hasDirectory directory = fs.hasDirectory directory := by
  rw [Bool.eq_iff_iff]
  simp only [hasDirectory, put, Bool.or_eq_true, List.any_eq_true, List.mem_cons, List.mem_filter,
    Bool.and_eq_true, List.isPrefixOf_iff_prefix, bne_iff_ne]
  constructor
  · rintro (habove | ⟨f, rfl | ⟨hf, -⟩, hprefix, hne⟩)
    · exact .inl habove
    · have hexists := h directory hprefix hne
      simpa only [hasDirectory, Bool.or_eq_true, List.any_eq_true, Bool.and_eq_true,
        List.isPrefixOf_iff_prefix, bne_iff_ne] using hexists
    · exact .inr ⟨f, hf, hprefix, hne⟩
  · rintro (habove | ⟨f, hf, hprefix, hne⟩)
    · exact .inl habove
    · by_cases hplace : f.1 = place
      · exact .inr ⟨(place, bytes), .inl rfl, hplace ▸ hprefix, hplace ▸ hne⟩
      · exact .inr ⟨f, .inr ⟨hf, hplace⟩, hprefix, hne⟩

theorem toOption_follow_put (h : fs.Reaches place) (parts : List (List Char)) (directory : Path) :
    ((fs.put place bytes).follow directory parts).toOption =
      (fs.follow directory parts).toOption := by
  induction parts generalizing directory with
  | nil => rfl
  | cons part parts ih =>
    simp only [follow, hasDirectory_put h]
    split
    · exact ih _
    · -- the way ends here, whatever stands in it
      split
      all_goals split
      all_goals rfl

theorem toOption_locate_put (h : fs.Reaches place) (path : String) :
    ((fs.put place bytes).locate path).toOption = (fs.locate path).toOption := by
  unfold locate
  split
  · rfl
  · exact toOption_follow_put h _ _

/-- A path that leads to the place leads to what is put there, any other one to what was there. -/
theorem content?_put (h : fs.Reaches place) (bytes : ByteArray) (path : String) :
    (fs.put place bytes).content? path = (fs.locate path).toOption.bind fun other =>
      if other = place then some bytes else fs.files.lookup other := by
  simp only [content?, toOption_locate_put h, Option.bind_eq_bind, lookup_put]

/-- **Writing changes one file only.** -/
theorem exists_write (h : fs.Writable path) (text : String) :
    ∃ fs', fs.write path text = .ok fs' ∧ fs.Overwrites path text fs' := by
  obtain ⟨place, hplace, hdirectory⟩ := h
  have hput (other : String) := content?_put (reaches_of_locate hplace) text.toUTF8 other
  refine ⟨fs.put place text.toUTF8, ?_, fun {other} hother => ?_, fun {other} hother => ?_⟩
  · simp only [write, hplace, bind, Except.bind, hdirectory, Bool.false_eq_true, if_false, pure,
      Except.pure]
  · rw [hput, hother, hplace]
    exact if_pos rfl
  · rw [hput, content?]
    cases hlocate : fs.locate other with
    | error e => rfl
    | ok elsewhere =>
      have hne : elsewhere ≠ place := by
        rintro rfl
        exact hother (hlocate.trans hplace.symm)
      exact if_neg hne

theorem write_of_not_writable (h : ¬fs.Writable path) (text : String) :
    ∃ e, fs.write path text = .error e := by
  unfold write
  cases hplace : fs.locate path with
  | error e => exact ⟨e, rfl⟩
  | ok place =>
    cases hdirectory : fs.hasDirectory place with
    | true =>
      refine ⟨.isDirectory, ?_⟩
      simp only [bind, Except.bind, hdirectory, if_true]
      rfl
    | false => exact absurd ⟨place, hplace, hdirectory⟩ h

end FileSet

end DrakeSyntax
