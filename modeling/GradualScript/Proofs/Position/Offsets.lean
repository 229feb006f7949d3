import GradualScript.Proofs.Scanning.Tiling

/-!
# Byte offsets of a text

A byte offset between two characters is known by the characters before it. The line table
of a text has the start of the first line and one more for each newline, and the binary
search over them finds the line of an offset. So the table gives such an offset the position
that follows the characters before it.
-/
namespace GradualScript

namespace Text

/-- The characters `before` are those that stand in the text before the byte offset, which
falls between two characters or at an end. -/
def Reaches (text before : List Char) (offset : Nat) : Prop :=
  before <+: text ∧ byteLength before = offset

variable {text before middle rest : List Char} {n first last offset : Nat}

@[simp] theorem byteLength_append (a b : List Char) :
    byteLength (a ++ b) = byteLength a + byteLength b := by
  induction a with
  | nil => simp [byteLength]
  | cons c a ih => simp [byteLength, ih, Nat.add_assoc]

theorem utf8ByteSize_ofList (text : List Char) :
    (String.ofList text).utf8ByteSize = byteLength text := by
  induction text with
  | nil => simp [byteLength]
  | cons c text ih =>
    rw [byteLength, ← ih]
    simp

theorem length_le_byteLength (text : List Char) : text.length ≤ byteLength text := by
  induction text with
  | nil => exact Nat.le_refl 0
  | cons c text ih =>
    have hpos := c.utf8Size_pos
    rw [List.length_cons, byteLength]
    omega

/-- Only the start of a text is at offset zero. -/
theorem eq_nil_of_byteLength (h : byteLength text = 0) : text = [] := by
  have hle := length_le_byteLength text
  exact List.eq_nil_of_length_eq_zero (by omega)

theorem takeBytes_eq_some_iff : takeBytes text n = some before ↔ Reaches text before n := by
  fun_induction takeBytes text n generalizing before with
  | case1 text =>
    constructor
    · rintro ⟨rfl⟩
      exact ⟨List.nil_prefix, rfl⟩
    · rintro ⟨-, hbefore⟩
      rw [eq_nil_of_byteLength hbefore]
  | case2 n =>
    constructor
    · nofun
    · rintro ⟨htext, hbefore⟩
      rw [List.prefix_nil.mp htext] at hbefore
      cases hbefore
  | case3 c text n hfits ih =>
    rw [Option.map_eq_some_iff]
    constructor
    · rintro ⟨before, htake, rfl⟩
      obtain ⟨htext, hbefore⟩ := ih.mp htake
      exact ⟨List.cons_prefix_cons.mpr ⟨rfl, htext⟩, by
        rw [byteLength, hbefore, Nat.add_sub_cancel' hfits]⟩
    · rintro ⟨htext, hbefore⟩
      cases before with
      | nil => cases hbefore
      | cons d before =>
        obtain ⟨rfl, hrest⟩ := List.cons_prefix_cons.mp htext
        rw [byteLength] at hbefore
        exact ⟨before, ih.mpr ⟨hrest, Nat.eq_sub_of_add_eq' hbefore⟩, rfl⟩
  | case4 c text n hfits =>
    constructor
    · nofun
    · rintro ⟨htext, hbefore⟩
      cases before with
      | nil => cases hbefore
      | cons d before =>
        obtain ⟨rfl, -⟩ := List.cons_prefix_cons.mp htext
        rw [byteLength] at hbefore
        omega

/-- Dropping some bytes drops the characters that taking them takes. -/
theorem dropBytes_eq (text : List Char) (n : Nat) :
    dropBytes text n = (takeBytes text n).map fun before => text.drop before.length := by
  fun_induction dropBytes text n with
  | case1 text => simp [takeBytes]
  | case2 n => simp [takeBytes]
  | case3 c text n hfits ih => simp [takeBytes, hfits, ih, Function.comp_def]
  | case4 c text n hfits => simp [takeBytes, hfits]

theorem dropBytes_eq_some_iff :
    dropBytes text n = some rest ↔ ∃ before, text = before ++ rest ∧ byteLength before = n := by
  simp only [dropBytes_eq, Option.map_eq_some_iff, takeBytes_eq_some_iff]
  constructor
  · rintro ⟨before, ⟨⟨rest, rfl⟩, hbefore⟩, rfl⟩
    exact ⟨before, by rw [List.drop_left], hbefore⟩
  · rintro ⟨before, rfl, hbefore⟩
    exact ⟨before, ⟨List.prefix_append .., hbefore⟩, List.drop_left⟩

/-- The characters between two offsets stand after those before the first. -/
theorem sliceBytes_eq_some_iff :
    sliceBytes text first last = some middle ↔
      ∃ before, Reaches text before first ∧ Reaches text (before ++ middle) last := by
  rw [sliceBytes]
  constructor
  · intro h
    split at h
    · next hle =>
      obtain ⟨rest, hdrop, htake⟩ := Option.bind_eq_some_iff.mp h
      obtain ⟨before, rfl, rfl⟩ := dropBytes_eq_some_iff.mp hdrop
      obtain ⟨hmiddle, hlength⟩ := takeBytes_eq_some_iff.mp htake
      refine ⟨before, ⟨List.prefix_append .., rfl⟩, ?_, ?_⟩
      · exact (List.prefix_append_right_inj before).mpr hmiddle
      · rw [byteLength_append]
        omega
    · cases h
  · rintro ⟨before, ⟨-, rfl⟩, ⟨rest, rfl⟩, rfl⟩
    have hdrop : dropBytes (before ++ middle ++ rest) (byteLength before) = some (middle ++ rest) :=
      dropBytes_eq_some_iff.mpr ⟨before, by rw [List.append_assoc], rfl⟩
    have htake : takeBytes (middle ++ rest) (byteLength (before ++ middle) - byteLength before) =
        some middle :=
      takeBytes_eq_some_iff.mpr ⟨List.prefix_append .., by rw [byteLength_append]; omega⟩
    rw [if_pos (by rw [byteLength_append]; omega), hdrop, Option.bind_some, htake]

/-- An offset is reached by one text only. -/
theorem Reaches.unique {more : List Char} (h : Reaches text before offset)
    (h' : Reaches text more offset) : before = more :=
  Option.some.inj ((takeBytes_eq_some_iff.mpr h).symm.trans (takeBytes_eq_some_iff.mpr h'))

theorem Reaches.le (h : Reaches text before offset) : offset ≤ byteLength text := by
  obtain ⟨⟨rest, rfl⟩, rfl⟩ := h
  rw [byteLength_append]
  omega

/-- What is before a later offset goes on after what is before an earlier one. -/
theorem Reaches.exists_between {more : List Char} {a b : Nat} (ha : Reaches text before a)
    (hb : Reaches text more b) (hlt : a < b) : ∃ between ≠ [], more = before ++ between := by
  rcases List.prefix_or_prefix_of_prefix ha.1 hb.1 with ⟨between, rfl⟩ | hbefore
  · refine ⟨between, ?_, rfl⟩
    rintro rfl
    have heq := ha.2.symm.trans (List.append_nil before ▸ hb.2)
    omega
  · have hle := Reaches.le ⟨hbefore, hb.2⟩
    rw [ha.2] at hle
    omega

theorem lastLine_append (a b : List Char) :
    lastLine (a ++ b) = if '\n' ∈ b then lastLine b else lastLine a ++ b := by
  induction b using List.reverseRecOn with
  | nil => simp
  | append_singleton b c ih =>
    by_cases hc : c = '\n'
    · subst hc
      simp [lastLine]
    · have hconcat : ∀ text : List Char, lastLine (text ++ [c]) = lastLine text ++ [c] := by
        intro text
        simp [lastLine, hc]
      rw [← List.append_assoc, hconcat, ih, hconcat]
      simp only [List.mem_append, List.mem_singleton, Ne.symm hc, or_false]
      split
      · rfl
      · rw [List.append_assoc]

end Text

namespace LineTable

open Text

variable {source : String} {before rest : List Char} {entries : Array Nat}
  {target low high k offset : Nat}

theorem startsFrom_append (offset : Nat) (a b : List Char) :
    startsFrom offset (a ++ b) = startsFrom offset a ++ startsFrom (offset + byteLength a) b := by
  induction a generalizing offset with
  | nil => rfl
  | cons c a ih =>
    simp only [List.cons_append, startsFrom, byteLength, ih, Nat.add_assoc]
    split
    · rfl
    · rfl

theorem length_startsFrom (offset : Nat) (text : List Char) :
    (startsFrom offset text).length = text.count '\n' := by
  induction text generalizing offset with
  | nil => rfl
  | cons c text ih =>
    simp only [startsFrom, List.count_cons, beq_iff_eq]
    split
    · rw [List.length_cons, ih]
    · rw [ih, Nat.add_zero]

/-- A line starts after its newline, which stands in the text. -/
theorem bounds_of_mem_startsFrom {text : List Char} {x : Nat} (h : x ∈ startsFrom offset text) :
    offset < x ∧ x ≤ offset + byteLength text := by
  induction text generalizing offset with
  | nil => cases h
  | cons c text ih =>
    have hpos := c.utf8Size_pos
    simp only [startsFrom, byteLength] at h ⊢
    split at h
    · rcases List.mem_cons.mp h with rfl | h
      · omega
      · have hrest := ih h
        omega
    · have hrest := ih h
      omega

/-- The last line of a text starts where what stands before it ends. -/
theorem exists_lineStart (before : List Char) :
    ∃ upTo, before = upTo ++ lastLine before ∧
      (0 :: startsFrom 0 before).getLast? = some (byteLength upTo) := by
  induction before using List.reverseRecOn with
  | nil => exact ⟨[], rfl, rfl⟩
  | append_singleton before c ih =>
    obtain ⟨upTo, hbefore, hlast⟩ := ih
    rw [startsFrom_append, lastLine_append, ← List.cons_append]
    by_cases hc : c = '\n'
    · subst hc
      refine ⟨before ++ ['\n'], ?_, ?_⟩
      · simp [lastLine]
      · simp only [startsFrom, if_true, List.getLast?_concat, byteLength_append, byteLength,
          Nat.zero_add, Nat.add_zero]
    · refine ⟨upTo, ?_, ?_⟩
      · simp [Ne.symm hc, ← List.append_assoc, ← hbefore]
      · simpa [startsFrom, hc] using hlast

/-- The binary search stops at the last entry that is at most the target, wherever the
entries up to it are and those after it are not. -/
theorem lastAtMost_eq (hlow : low ≤ k) (hhigh : k < high)
    (hbelow : ∀ i ≤ k, entries.getD i 0 ≤ target)
    (habove : ∀ i, k < i → i < high → target < entries.getD i 0) :
    lastAtMost entries target low high = k := by
  fun_induction lastAtMost entries target low high with
  | case1 low high hwide middle hle ih =>
    have hmiddle : middle = (low + high) / 2 := rfl
    refine ih ?_ hhigh habove
    by_contra hlt
    have hnot := habove middle (by omega) (by omega)
    omega
  | case2 low high hwide middle hgt ih =>
    have hmiddle : middle = (low + high) / 2 := rfl
    refine ih hlow ?_ fun i hi hlt => habove i hi (by omega)
    by_contra hle
    exact hgt (hbelow middle (by omega))
  | case3 low high hnarrow => omega

theorem getD_starts (source : String) (i : Nat) :
    (build source).starts.getD i 0 = ((0 :: startsFrom 0 source.toList)[i]?).getD 0 := by
  rw [Array.getD_eq_getD_getElem?, build, List.getElem?_toArray]

/-- The starts of the lines up to an offset come first, then those after it. -/
theorem starts_eq (h : source.toList = before ++ rest) :
    0 :: startsFrom 0 source.toList =
      (0 :: startsFrom 0 before) ++ startsFrom (byteLength before) rest := by
  rw [h, startsFrom_append, Nat.zero_add, List.cons_append]

/-- The line of an offset is the number of newlines before it. -/
theorem lastAtMost_starts (h : source.toList = before ++ rest) :
    lastAtMost (build source).starts (byteLength before) 0 (build source).starts.size =
      before.count '\n' := by
  have hlength : (0 :: startsFrom 0 before).length = before.count '\n' + 1 := by
    rw [List.length_cons, length_startsFrom]
  have hsize : (build source).starts.size =
      before.count '\n' + 1 + (startsFrom (byteLength before) rest).length := by
    rw [build, List.size_toArray, starts_eq h, List.length_append, hlength]
  refine lastAtMost_eq (Nat.zero_le _) (by omega) (fun i hi => ?_) fun i hi hlt => ?_
  · rw [getD_starts, starts_eq h, List.getElem?_append_left (by omega),
      List.getElem?_eq_getElem (by omega), Option.getD_some]
    rcases List.mem_cons.mp (List.getElem_mem (l := 0 :: startsFrom 0 before) (n := i) (by omega))
      with hzero | hmem
    · omega
    · have hbounds := bounds_of_mem_startsFrom hmem
      omega
  · rw [getD_starts, starts_eq h, List.getElem?_append_right (by omega),
      List.getElem?_eq_getElem (by omega), Option.getD_some]
    exact (bounds_of_mem_startsFrom (List.getElem_mem _)).1

/-- The line of an offset starts where what stands before this line ends. -/
theorem exists_getD_starts (h : source.toList = before ++ rest) :
    ∃ upTo, before = upTo ++ lastLine before ∧
      (build source).starts.getD (before.count '\n') 0 = byteLength upTo := by
  obtain ⟨upTo, hbefore, hlast⟩ := exists_lineStart before
  have hline : before.count '\n' < (0 :: startsFrom 0 before).length := by
    rw [List.length_cons, length_startsFrom]
    omega
  refine ⟨upTo, hbefore, ?_⟩
  rw [List.getLast?_eq_getElem?, List.length_cons, length_startsFrom, Nat.add_sub_cancel] at hlast
  rw [getD_starts, starts_eq h, List.getElem?_append_left hline, hlast, Option.getD_some]

/-- The table gives an offset the position that follows the characters before it. -/
theorem position_of_reaches (h : Reaches source.toList before offset) :
    (build source).position offset = .following before := by
  obtain ⟨⟨rest, hsource⟩, rfl⟩ := h
  obtain ⟨upTo, hbefore, hstart⟩ := exists_getD_starts hsource.symm
  have hline := lastAtMost_starts hsource.symm
  have hsize : min (byteLength before) (build source).size = byteLength before := by
    have hbuilt : (build source).size = byteLength before + byteLength rest := by
      rw [build, ← hsource, byteLength_append]
    omega
  have hslice : sliceBytes (build source).text (byteLength upTo) (byteLength before) =
      some (lastLine before) := by
    have hwhole : before <+: source.toList := ⟨rest, hsource⟩
    have hfront : upTo <+: before := ⟨lastLine before, hbefore.symm⟩
    refine sliceBytes_eq_some_iff.mpr ⟨upTo, ⟨hfront.trans hwhole, rfl⟩, ?_⟩
    exact hbefore ▸ ⟨hwhole, rfl⟩
  simp only [position, hsize, hline, hstart, hslice]
  rfl

end LineTable

end GradualScript
