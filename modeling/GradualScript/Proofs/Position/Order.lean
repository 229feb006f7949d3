import GradualScript.Proofs.Position.Offsets

/-!
# Positions follow the order of the text

In a text that is short enough for its counts, no count stops at the largest one. So the
position of an offset says exactly how many newlines are before it and how many characters
since the last of them, a later offset has a later position, and the positions of the tokens
increase.
-/
namespace GradualScript

open Text Scanner

variable {source : String} {text before between done rest : List Char} {tokens : List Token}

theorem Text.length_lastLine_le (text : List Char) : (lastLine text).length ≤ text.length := by
  have hle := List.IsPrefix.length_le (List.takeWhile_prefix (l := text.reverse) (· ≠ '\n'))
  simpa [lastLine] using hle

namespace Position

/-- The counts of a short text are its newlines and the characters of its last line. -/
theorem following_eq (h : text.length < largest) :
    following text = ⟨text.count '\n' + 1, (lastLine text).length + 1⟩ := by
  have hlines := text.count_le_length (a := '\n')
  have hcolumns := length_lastLine_le text
  rw [following, ofCounts, Nat.min_eq_left (by omega), Nat.min_eq_left (by omega)]

/-- More characters lead to a later line, or further on the same line. -/
theorem following_lt (h : (before ++ between).length < largest) (hne : between ≠ []) :
    following before < following (before ++ between) := by
  have hlength : before.length < largest := by
    rw [List.length_append] at h
    omega
  rw [following_eq h, following_eq hlength, lt_def]
  simp only [List.count_append, lastLine_append]
  by_cases hnewline : '\n' ∈ between
  · have hpos := List.count_pos_iff.mpr hnewline
    omega
  · have hpos := List.length_pos_iff.mpr hne
    rw [List.count_eq_zero_of_not_mem hnewline, if_neg hnewline, List.length_append]
    omega

end Position

namespace Scanner

/-- Every token starts at a character of the text that is read. -/
theorem Tiles.exists_start (h : Tiles done text tokens rest) {t : Token} (ht : t ∈ tokens) :
    ∃ read c more, text = read ++ c :: more ∧ t.position = .following (done ++ read) := by
  induction h with
  | stop => cases ht
  | @blank done text rest tokens c _ _ ih =>
    obtain ⟨read, d, more, rfl, hplace⟩ := ih ht
    exact ⟨c :: read, d, more, rfl, by rw [hplace]; simp⟩
  | @token done text rest lexeme tokens kind hlongest _ ih =>
    obtain ⟨c, line, rfl, -⟩ := hlongest.isToken.head
    rcases List.mem_cons.mp ht with rfl | ht
    · exact ⟨[], c, line ++ text, rfl, by rw [List.append_nil]⟩
    · obtain ⟨read, d, more, rfl, hplace⟩ := ih ht
      exact ⟨c :: line ++ read, d, more, by simp, by rw [hplace]; simp⟩

/-- The tokens that are read stand at increasing positions. -/
theorem Tiles.pairwise_lt (h : Tiles done text tokens rest)
    (hshort : (done ++ text).length < Position.largest) :
    tokens.Pairwise fun t u => t.position < u.position := by
  induction h with
  | stop => exact .nil
  | blank _ _ ih => exact ih (by simpa using hshort)
  | @token done text rest lexeme tokens kind hlongest htiles ih =>
    rw [← List.append_assoc] at hshort
    refine List.pairwise_cons.mpr ⟨fun u hu => ?_, ih hshort⟩
    obtain ⟨read, c, more, rfl, hplace⟩ := htiles.exists_start hu
    obtain ⟨d, line, rfl, -⟩ := hlongest.isToken.head
    rw [hplace, List.append_assoc]
    refine Position.following_lt ?_ (by simp)
    simp only [List.length_append, List.length_cons] at hshort ⊢
    omega

end Scanner

/-- All tokens of a text, comments and the end included, stand at offsets between its
characters. -/
theorem exists_offset_of_scanWithComments (h : scanWithComments source = .ok tokens) {t : Token}
    (ht : t ∈ tokens) : ∃ offset before, Reaches source.toList before offset ∧
      t.position = .following before := by
  obtain ⟨body, htiles, rfl⟩ := scanWithComments_ok_iff.mp h
  rcases List.mem_append.mp ht with ht | ht
  · obtain ⟨read, c, more, hsource, hplace⟩ := htiles.exists_start ht
    exact ⟨byteLength read, read, ⟨⟨c :: more, hsource.symm⟩, rfl⟩, hplace⟩
  · rw [List.mem_singleton.mp ht]
    exact ⟨byteLength source.toList, source.toList, ⟨List.prefix_rfl, rfl⟩, rfl⟩

/-- In a short text they stand at increasing positions. -/
theorem pairwise_lt_of_scanWithComments (hshort : source.toList.length < Position.largest)
    (h : scanWithComments source = .ok tokens) :
    tokens.Pairwise fun t u => t.position < u.position := by
  obtain ⟨body, htiles, rfl⟩ := scanWithComments_ok_iff.mp h
  refine List.pairwise_append.mpr ⟨htiles.pairwise_lt hshort, List.pairwise_singleton _ _, ?_⟩
  intro t ht u hu
  obtain ⟨read, c, more, hsource, hplace⟩ := htiles.exists_start ht
  rw [List.mem_singleton.mp hu, hplace, Token.endAt, hsource]
  rw [hsource] at hshort
  exact Position.following_lt hshort (List.cons_ne_nil c more)

/-- The tokens without the comments are some of all tokens, in their order. -/
theorem exists_scanWithComments (h : scan source = .ok tokens) :
    ∃ all, scanWithComments source = .ok all ∧ tokens.Sublist all := by
  rw [scan] at h
  cases hall : scanWithComments source with
  | error e =>
    rw [hall] at h
    cases h
  | ok all =>
    rw [hall] at h
    cases h
    exact ⟨all, rfl, List.filter_sublist⟩

namespace LineTable

/-- In a text of fewer bytes than the largest count, an offset between two characters has the
line and the column that the characters before it make, and a later one has a later position.
The tokens of such a text, with or without the comments, stand at positions of such offsets,
and these increase. -/
theorem position_increases (source : String) (hshort : source.utf8ByteSize < Position.largest) :
    (∀ offset before, Reaches source.toList before offset →
      (build source).position offset = ⟨before.count '\n' + 1, (lastLine before).length + 1⟩) ∧
    (∀ a b before more, Reaches source.toList before a → Reaches source.toList more b → a < b →
      (build source).position a < (build source).position b) ∧
    (∀ tokens, scan source = .ok tokens ∨ scanWithComments source = .ok tokens →
      (∀ t ∈ tokens, ∃ offset before, Reaches source.toList before offset ∧
        t.position = (build source).position offset) ∧
      tokens.Pairwise fun t u => t.position < u.position) := by
  have hlength : source.toList.length < Position.largest := by
    have hle := length_le_byteLength source.toList
    rw [← utf8ByteSize_ofList, String.ofList_toList] at hle
    omega
  refine ⟨fun offset before hreaches => ?_, fun a b before more ha hb hlt => ?_,
    fun tokens htokens => ?_⟩
  · rw [position_of_reaches hreaches]
    exact Position.following_eq (Nat.lt_of_le_of_lt hreaches.1.length_le hlength)
  · obtain ⟨between, hne, rfl⟩ := ha.exists_between hb hlt
    rw [position_of_reaches ha, position_of_reaches hb]
    exact Position.following_lt (Nat.lt_of_le_of_lt hb.1.length_le hlength) hne
  · obtain ⟨all, hall, hsome⟩ : ∃ all, scanWithComments source = .ok all ∧ tokens.Sublist all := by
      rcases htokens with h | h
      · exact exists_scanWithComments h
      · exact ⟨tokens, h, .refl tokens⟩
    refine ⟨fun t ht => ?_, (pairwise_lt_of_scanWithComments hlength hall).sublist hsome⟩
    obtain ⟨offset, before, hreaches, hplace⟩ :=
      exists_offset_of_scanWithComments hall (hsome.subset ht)
    exact ⟨offset, before, hreaches, by rw [hplace, position_of_reaches hreaches]⟩

/-- A name between quotes over two lines, with a character of two bytes before the break. -/
theorem position_increases_quoted :
    let source := "print \"\u00e9\nb\" == c; // end"
    source.utf8ByteSize < Position.largest ∧
      Reaches source.toList "print \"\u00e9".toList 9 ∧
      Reaches source.toList "print \"\u00e9\n".toList 10 ∧
      (build source).position 9 < (build source).position 10 ∧
      (build source).position 10 = ⟨2, 1⟩ ∧
      ∀ tokens, scan source = .ok tokens → tokens.Pairwise fun t u => t.position < u.position := by
  intro source
  have hshort : source.utf8ByteSize < Position.largest := by decide
  have hquote : Reaches source.toList "print \"\u00e9".toList 9 := ⟨by decide, by decide⟩
  have hbreak : Reaches source.toList "print \"\u00e9\n".toList 10 := ⟨by decide, by decide⟩
  obtain ⟨hplace, hlater, htokens⟩ := position_increases source hshort
  exact ⟨hshort, hquote, hbreak, hlater 9 10 _ _ hquote hbreak (by decide),
    (hplace 10 _ hbreak).trans (by decide), fun tokens h => (htokens tokens (.inl h)).2⟩

end LineTable

end GradualScript
