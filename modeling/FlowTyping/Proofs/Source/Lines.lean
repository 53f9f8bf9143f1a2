import FlowTyping.Source.Place
import Mathlib.Data.List.Basic

/-
  Offsets and positions

  The starts of lines are the offset 0 and the offset after each newline, in
  increasing order. So of the starts that are at or before an offset there is
  one more than there are newlines before it (`lineAt_ofBytes`), and the last of
  them is where its line starts (`startsLine_startOf`). The place of an extent is
  made of these two numbers and the distance between them and the offset, and
  tells the offset (`places_exact`).
-/
namespace FlowTyping

/-- Whether a position comes before another one in reading order. -/
def Place.Before (p q : Place) : Prop := p.line < q.line ∨ (p.line = q.line ∧ p.column < q.column)

namespace LineTable

variable {bytes : List UInt8} {base offset start first : Nat} {i : Nat}

/-- The line of `offset` starts at `start`: at 0 or after a newline, and there is no newline from
there up to `offset`. -/
structure StartsLine (bytes : List UInt8) (offset start : Nat) : Prop where
  le : start ≤ offset
  after : start = 0 ∨ ∃ i, start = i + 1 ∧ bytes[i]? = some 10
  unbroken : ∀ i, start ≤ i → i < offset → bytes[i]? ≠ some 10

/-- Only one offset is where a line starts. -/
theorem StartsLine.unique {start' : Nat} (h : StartsLine bytes offset start)
    (h' : StartsLine bytes offset start') : start = start' := by
  have key : ∀ {a b : Nat}, StartsLine bytes offset a → StartsLine bytes offset b → b ≤ a := by
    intro a b ha hb
    rcases hb.after with rfl | ⟨i, rfl, hnewline⟩
    · exact Nat.zero_le _
    · refine Nat.lt_of_not_le fun hle => ?_
      exact ha.unbroken i hle hb.le hnewline
  exact Nat.le_antisymm (key h' h) (key h h')

/-! ## The starts of lines -/

theorem mem_startsFrom : start ∈ startsFrom base bytes ↔
    ∃ i, start = base + i + 1 ∧ bytes[i]? = some 10 := by
  induction bytes generalizing base with
  | nil => simp [startsFrom]
  | cons byte rest ih =>
    -- a newline is the first byte, or one of the rest
    have hsplit : (∃ i, start = base + i + 1 ∧ (byte :: rest)[i]? = some 10) ↔
        (start = base + 1 ∧ byte = 10) ∨ ∃ i, start = base + 1 + i + 1 ∧ rest[i]? = some 10 := by
      constructor
      · rintro ⟨i, rfl, hnewline⟩
        cases i with
        | zero => exact .inl ⟨rfl, Option.some.inj hnewline⟩
        | succ i => exact .inr ⟨i, by omega, hnewline⟩
      · rintro (⟨rfl, rfl⟩ | ⟨i, rfl, hnewline⟩)
        · exact ⟨0, rfl, rfl⟩
        · exact ⟨i + 1, by omega, hnewline⟩
    rw [hsplit, startsFrom]
    split
    · next heq => rw [List.mem_cons, ih, and_iff_left heq]
    · next hne => rw [ih, or_iff_right fun h => hne h.2]

theorem pairwise_startsFrom : (startsFrom base bytes).Pairwise (· < ·) := by
  induction bytes generalizing base with
  | nil => exact .nil
  | cons byte rest ih =>
    unfold startsFrom
    split
    · refine List.pairwise_cons.mpr ⟨fun start hstart => ?_, ih⟩
      obtain ⟨i, rfl, -⟩ := mem_startsFrom.mp hstart
      omega
    · exact ih

/-- The starts of lines are in increasing order. -/
theorem pairwise_starts : (ofBytes bytes).starts.Pairwise (· < ·) := by
  refine List.pairwise_cons.mpr ⟨fun start hstart => ?_, pairwise_startsFrom⟩
  obtain ⟨i, rfl, -⟩ := mem_startsFrom.mp hstart
  exact Nat.succ_pos _

theorem le_length_of_mem_starts (h : start ∈ (ofBytes bytes).starts) : start ≤ bytes.length := by
  rcases List.mem_cons.mp h with rfl | h
  · exact Nat.zero_le _
  · obtain ⟨i, rfl, hnewline⟩ := mem_startsFrom.mp h
    have hlt := (List.getElem?_eq_some_iff.mp hnewline).1
    omega

/-! ## Lines -/

/-- As many lines start after `base` and at or before an offset as there are newlines in between. -/
theorem length_takeWhile_startsFrom (base : Nat) (bytes : List UInt8) (n : Nat) :
    ((startsFrom base bytes).takeWhile (· ≤ base + n)).length = (bytes.take n).count 10 := by
  induction bytes generalizing base n with
  | nil => simp [startsFrom]
  | cons byte rest ih =>
    cases n with
    | zero =>
      -- every line of the rest starts after `base`
      have hnone : ((startsFrom base (byte :: rest)).takeWhile (· ≤ base + 0)) = [] := by
        cases hstarts : startsFrom base (byte :: rest) with
        | nil => rfl
        | cons start starts =>
          obtain ⟨i, rfl, -⟩ := mem_startsFrom.mp (hstarts ▸ List.mem_cons_self)
          exact List.takeWhile_cons_of_neg (by rw [decide_eq_true_eq]; omega)
      rw [hnone]
      rfl
    | succ n =>
      have hshift : base + (n + 1) = base + 1 + n := by omega
      rw [List.take_succ_cons, List.count_cons, ← ih (base + 1), hshift, startsFrom]
      split
      · next heq =>
        rw [List.takeWhile_cons_of_pos (by simp), List.length_cons, heq]
        rfl
      · next hne => simp [hne]

/-- The line of an offset, counted from 0, is the number of newlines before it. -/
theorem lineAt_ofBytes (bytes : List UInt8) (offset : Nat) :
    (ofBytes bytes).lineAt offset = (bytes.take offset).count 10 := by
  have hcount := length_takeWhile_startsFrom 0 bytes offset
  rw [Nat.zero_add] at hcount
  unfold lineAt ofBytes
  rw [List.takeWhile_cons_of_pos (by simp), List.length_cons, hcount, Nat.add_sub_cancel]

/-- The last newline in the rest of a text is the last one in the text. -/
theorem exists_last_newline_cons (byte : UInt8) {rest : List UInt8}
    (h : ∃ i < n, start = base + 1 + i + 1 ∧ rest[i]? = some 10 ∧
      ∀ j, i < j → j < n → rest[j]? ≠ some 10) :
    ∃ i < n + 1, start = base + i + 1 ∧ (byte :: rest)[i]? = some 10 ∧
      ∀ j, i < j → j < n + 1 → (byte :: rest)[j]? ≠ some 10 := by
  obtain ⟨i, hi, rfl, hnewline, hnone⟩ := h
  refine ⟨i + 1, Nat.succ_lt_succ hi, by omega, hnewline, fun j hj hlt => ?_⟩
  cases j with
  | zero => exact absurd hj (Nat.not_lt_zero _)
  | succ j => exact hnone j (Nat.lt_of_succ_lt_succ hj) (Nat.lt_of_succ_lt_succ hlt)

/-- Where the last line starts that begins at or before `base + n`, if one starts at `first`. -/
theorem startsFrom_getElem? (base first : Nat) (bytes : List UInt8) (n : Nat) : ∃ start,
    (first :: startsFrom base bytes)[(bytes.take n).count 10]? = some start ∧
      ((start = first ∧ ∀ i < n, bytes[i]? ≠ some 10) ∨
        ∃ i < n, start = base + i + 1 ∧ bytes[i]? = some 10 ∧
          ∀ j, i < j → j < n → bytes[j]? ≠ some 10) := by
  induction bytes generalizing base first n with
  | nil => exact ⟨first, by simp, .inl ⟨rfl, by simp⟩⟩
  | cons byte rest ih =>
    cases n with
    | zero => exact ⟨first, by simp, .inl ⟨rfl, fun i hi => absurd hi (Nat.not_lt_zero i)⟩⟩
    | succ n =>
      rw [List.take_succ_cons, List.count_cons, startsFrom]
      by_cases hbyte : byte = 10
      · -- the lines go on from the one that starts after this newline
        obtain ⟨start, hstart, hline⟩ := ih (base + 1) (base + 1) n
        subst hbyte
        refine ⟨start, by simpa using hstart, .inr ?_⟩
        rcases hline with ⟨rfl, hnone⟩ | hlast
        · refine ⟨0, Nat.succ_pos n, rfl, rfl, fun j hj hlt => ?_⟩
          obtain ⟨j, rfl⟩ := Nat.exists_eq_succ_of_ne_zero (Nat.pos_iff_ne_zero.mp hj)
          exact hnone j (Nat.lt_of_succ_lt_succ hlt)
        · exact exists_last_newline_cons 10 hlast
      · obtain ⟨start, hstart, hline⟩ := ih (base + 1) first n
        refine ⟨start, by simpa [hbyte] using hstart, ?_⟩
        rcases hline with ⟨rfl, hnone⟩ | hlast
        · refine .inl ⟨rfl, fun j hj => ?_⟩
          cases j with
          | zero => exact fun h => hbyte (Option.some.inj h)
          | succ j => exact hnone j (Nat.lt_of_succ_lt_succ hj)
        · exact .inr (exists_last_newline_cons byte hlast)

/-- The offset at which the table lets the line of an offset start. -/
def lineStart (bytes : List UInt8) (offset : Nat) : Nat :=
  (ofBytes bytes).startOf ((ofBytes bytes).lineAt offset)

/-- The table has an entry for the line of every offset, and the line starts there. -/
theorem lineStart_spec (bytes : List UInt8) (offset : Nat) :
    (ofBytes bytes).starts[(ofBytes bytes).lineAt offset]? = some (lineStart bytes offset) ∧
      StartsLine bytes offset (lineStart bytes offset) := by
  obtain ⟨start, hstart, hline⟩ := startsFrom_getElem? 0 0 bytes offset
  have hentry : (ofBytes bytes).starts[(ofBytes bytes).lineAt offset]? = some start :=
    lineAt_ofBytes bytes offset ▸ hstart
  have heq : lineStart bytes offset = start := by rw [lineStart, startOf, hentry, Option.getD_some]
  rw [heq]
  refine ⟨hentry, ?_⟩
  rcases hline with ⟨rfl, hnone⟩ | ⟨i, hi, rfl, hnewline, hnone⟩
  · exact ⟨Nat.zero_le _, .inl rfl, fun i _ hi => hnone i hi⟩
  · exact ⟨by omega, .inr ⟨i, by omega, hnewline⟩, fun j hj hlt => hnone j (by omega) hlt⟩

theorem starts_lineAt (bytes : List UInt8) (offset : Nat) :
    (ofBytes bytes).starts[(ofBytes bytes).lineAt offset]? = some (lineStart bytes offset) :=
  (lineStart_spec bytes offset).1

theorem startsLine_lineStart (bytes : List UInt8) (offset : Nat) :
    StartsLine bytes offset (lineStart bytes offset) :=
  (lineStart_spec bytes offset).2

theorem lt_of_starts {i j start stop : Nat} (hi : (ofBytes bytes).starts[i]? = some start)
    (hj : (ofBytes bytes).starts[j]? = some stop) (hlt : i < j) : start < stop := by
  obtain ⟨hilt, rfl⟩ := List.getElem?_eq_some_iff.mp hi
  obtain ⟨hjlt, rfl⟩ := List.getElem?_eq_some_iff.mp hj
  exact List.pairwise_iff_getElem.mp pairwise_starts i j hilt hjlt hlt

/-- The lines that start at or before an offset are those up to its own. -/
theorem start_le_iff (h : (ofBytes bytes).starts[i]? = some start) :
    start ≤ offset ↔ i ≤ (ofBytes bytes).lineAt offset := by
  have hline := startsLine_lineStart bytes offset
  constructor
  · intro hle
    refine Nat.le_of_not_lt fun hlt => ?_
    -- a later line starts after a newline at or after the start of the line of `offset`
    have hbefore := lt_of_starts (starts_lineAt bytes offset) h hlt
    rcases List.mem_cons.mp (List.mem_of_getElem? h) with rfl | hmem
    · exact Nat.not_lt_zero _ hbefore
    · obtain ⟨j, rfl, hnewline⟩ := mem_startsFrom.mp hmem
      exact hline.unbroken j (by omega) (by omega) hnewline
  · intro hle
    rcases Nat.lt_or_eq_of_le hle with hlt | rfl
    · have hbefore := lt_of_starts h (starts_lineAt bytes offset) hlt
      exact Nat.le_of_lt (Nat.lt_of_lt_of_le hbefore hline.le)
    · rw [starts_lineAt] at h
      exact Option.some.inj h ▸ hline.le

/-- A line needs a newline for each line before it. -/
theorem le_start_of_starts (h : (ofBytes bytes).starts[i]? = some start) : i ≤ start := by
  induction i generalizing start with
  | zero => exact Nat.zero_le _
  | succ i ih =>
    have hlt : i < (ofBytes bytes).starts.length :=
      Nat.lt_of_succ_lt (List.getElem?_eq_some_iff.mp h).1
    have hprevious := List.getElem?_eq_getElem hlt
    exact Nat.lt_of_le_of_lt (ih hprevious) (lt_of_starts hprevious h (Nat.lt_succ_self i))

/-! ## Places -/

@[simp] theorem place_line (e : Extent) (file : Option String) :
    ((ofBytes bytes).place e file).line = (ofBytes bytes).lineAt e.start + 1 := rfl

@[simp] theorem place_column (e : Extent) (file : Option String) :
    ((ofBytes bytes).place e file).column = e.start - lineStart bytes e.start + 1 := rfl

/-- Reading order is the order of offsets. -/
theorem before_place {e e' : Extent} {file file' : Option String} (h : e.start < e'.start) :
    ((ofBytes bytes).place e file).Before ((ofBytes bytes).place e' file') := by
  have hle := (startsLine_lineStart bytes e.start).le
  -- the line of the earlier offset starts at or before the later one too
  have hline : (ofBytes bytes).lineAt e.start ≤ (ofBytes bytes).lineAt e'.start :=
    (start_le_iff (starts_lineAt bytes e.start)).mp (by omega)
  rcases Nat.lt_or_eq_of_le hline with hlt | heq
  · exact .inl (Nat.succ_lt_succ hlt)
  · refine .inr ⟨congrArg Nat.succ heq, ?_⟩
    have hstart : lineStart bytes e.start = lineStart bytes e'.start := by
      rw [lineStart, heq, lineStart]
    simp only [place_column]
    omega

theorem before_place_iff {e e' : Extent} {file file' : Option String} :
    ((ofBytes bytes).place e file).Before ((ofBytes bytes).place e' file') ↔
      e.start < e'.start := by
  refine ⟨fun h => Nat.lt_of_not_le fun hle => ?_, before_place⟩
  rcases Nat.lt_or_eq_of_le hle with hlt | heq
  · have hback : ((ofBytes bytes).place e' file').Before ((ofBytes bytes).place e file) :=
      before_place hlt
    unfold Place.Before at h hback
    omega
  · -- the same offset has the same position
    unfold Place.Before place at h
    simp only [heq] at h
    omega

theorem place_eq_iff {e e' : Extent} {file file' : Option String} :
    (((ofBytes bytes).place e file).line = ((ofBytes bytes).place e' file').line ∧
      ((ofBytes bytes).place e file).column = ((ofBytes bytes).place e' file').column) ↔
      e.start = e'.start := by
  constructor
  · rintro ⟨hline, hcolumn⟩
    refine Nat.le_antisymm (Nat.le_of_not_lt fun hlt => ?_) (Nat.le_of_not_lt fun hlt => ?_)
    · have hbefore : ((ofBytes bytes).place e' file').Before ((ofBytes bytes).place e file) :=
        before_place hlt
      unfold Place.Before at hbefore
      omega
    · have hbefore : ((ofBytes bytes).place e file).Before ((ofBytes bytes).place e' file') :=
        before_place hlt
      unfold Place.Before at hbefore
      omega
  · intro heq
    simp only [place, heq, and_self]

/-- What the place of an extent says about its offset in a text. -/
structure Locates (bytes : List UInt8) (e : Extent) (p : Place) : Prop where
  /-- Its line is one more than the newlines before the offset. -/
  line : p.line = 1 + (bytes.take e.start).count 10
  /-- Its column is one more than the distance from the byte after the last of them, and the
  table's entry for the line gives the offset back. -/
  column : ∃ start, StartsLine bytes e.start start ∧
    (ofBytes bytes).starts[p.line - 1]? = some start ∧
    p.column = 1 + (e.start - start) ∧ start + (p.column - 1) = e.start
  /-- Both grow with the offset only: together they stay below it, up to the two ones. -/
  small : p.line + p.column ≤ e.start + 2
  /-- Only an empty extent has no width. -/
  width_none : p.width = none ↔ e.start = e.stop
  width_some : ∀ width ∈ p.width, e.start ≤ e.stop → e.start + width = e.stop

theorem locates_place (bytes : List UInt8) (e : Extent) (file : Option String) :
    Locates bytes e ((ofBytes bytes).place e file) := by
  have hline := startsLine_lineStart bytes e.start
  have hentry := starts_lineAt bytes e.start
  have hle := hline.le
  have hindex := le_start_of_starts hentry
  refine ⟨?_, ⟨lineStart bytes e.start, hline, hentry, Nat.add_comm _ _, ?_⟩, ?_, ?_, ?_⟩
  · rw [place_line, lineAt_ofBytes, Nat.add_comm]
  · exact Nat.add_sub_cancel' hle
  · simp only [place_line, place_column]
    omega
  · simp [place, Extent.isEmpty]
  · intro width hwidth hordered
    change width ∈ (if e.isEmpty then none else some e.length) at hwidth
    split at hwidth
    · cases hwidth
    · cases hwidth
      exact Nat.add_sub_cancel' hordered

end LineTable

end FlowTyping
