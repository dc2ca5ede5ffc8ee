import SourceMarks.Proofs.Json.Quote
import SourceMarks.Proofs.Outcome
import SourceMarks.Proofs.Text.Split
import Mathlib.Data.List.Forall2

/-!
Reading back what was written. A character of a string may be spelled in several ways; lists and
objects are read from the written forms of their parts.
-/
namespace SourceMarks
namespace Json
variable {α : Type} {c : Char} {t rest : Text} {read : Text → Except Stop (α × Text)}

theorem skip_cons (h : isSpace c = false) (t : Text) : skip (c :: t) = c :: t := by
  simp [skip, h]

theorem skip_append {b : Text} (hb : ∀ c ∈ b, isSpace c = true) (t : Text) :
    skip (b ++ t) = skip t := List.dropWhile_append_of_pos hb

theorem no_blanks : ∀ c ∈ ([] : Text), isSpace c = true := by simp

/-- A way to write a character inside a string. -/
def Spells (w : Text) (c : Char) : Prop :=
  ∀ rest, stringBody (w ++ rest) = consTo c (stringBody rest)

theorem hexValue?_hexDigit : ∀ n, n < 16 → hexValue? (hexDigit n) = some n := by decide

theorem spells_self (hn : c ∉ shortEscapes) (hc : ¬ c.toNat < 32) : Spells [c] c := by
  intro rest
  simp only [shortEscapes, List.mem_cons, List.not_mem_nil, or_false, not_or] at hn
  simp [stringBody, hn, hc]

theorem spells_escaped {d : Char} (hd : d ≠ 'u') (h : escaped? d = some c) :
    Spells ['\\', d] c := by
  intro rest
  simp [stringBody, hd, h]

theorem spells_code {m n : Nat} (hm : m < 16) (hn : n < 16) (hc : m * 16 + n = c.toNat) :
    Spells ['\\', 'u', '0', '0', hexDigit m, hexDigit n] c := by
  intro rest
  have hz : hexValue? '0' = some 0 := rfl
  have h4 : hexValue4? '0' '0' (hexDigit m) (hexDigit n) = some c.toNat := by
    simp [hexValue4?, hz, hexValue?_hexDigit m hm, hexValue?_hexDigit n hn, hc]
  have hlow : isLowHalf c.toNat = false := by simp [isLowHalf]; omega
  have hhigh : isHighHalf c.toNat = false := by simp [isHighHalf]; omega
  simp [stringBody, h4, hlow, hhigh]

theorem spells_escape (c : Char) : Spells (escape c) c := by
  obtain ⟨he, hs, hc⟩ | ⟨d, hd, he, hc⟩ | ⟨m, n, hm, hn, he, hc⟩ := escape_forms c
  · exact he ▸ spells_self hs hc
  · rw [he]
    refine spells_escaped (fun hu => ?_) hc
    subst hu
    revert hd
    decide
  · rw [he]
    exact spells_code hm hn hc

theorem stringBody_flatMap {spell : Char → Text} (h : ∀ c, Spells (spell c) c) (s rest : Text) :
    stringBody (s.flatMap spell ++ '"' :: rest) = .ok (s, rest) := by
  induction s with
  | nil => simp [stringBody]
  | cons c s ih =>
    rw [List.flatMap_cons, List.append_assoc, h c, ih]
    rfl


/-- A value is read from its written form, whatever follows. -/
structure Reads (read : Text → Except Stop (α × Text)) (w : Text) (v : α) : Prop where
  head : ∃ c t, w = c :: t ∧ isSpace c = false ∧ c ≠ ']'
  reads : ∀ rest, read (w ++ rest) = .ok (v, rest)

/-- A character that no number goes on with. -/
def endsNumber (c : Char) : Bool := !c.isDigit && c ∉ ['.', 'e', 'E']

/-- A text in front of which a number ends. -/
def Apart (t : Text) : Prop := ∀ c ∈ t.head?, endsNumber c = true

theorem apart_cons (h : endsNumber c = true) (t : Text) : Apart (c :: t) := by
  intro d hd
  cases hd
  exact h

theorem endsNumber_of_isSpace (h : isSpace c = true) : endsNumber c = true := by
  simp only [isSpace, Bool.or_eq_true, decide_eq_true_eq, or_assoc] at h
  rcases h with rfl | rfl | rfl | rfl <;> decide

theorem Apart.behind_blanks {b : Text} (h : Apart t) (hb : ∀ c ∈ b, isSpace c = true) :
    Apart (b ++ t) := by
  cases b with
  | nil => exact h
  | cons c b => exact apart_cons (endsNumber_of_isSpace (hb c List.mem_cons_self)) _

/-- A value is read from its written form, if that is no number with more of it behind. -/
structure ReadsApart (read : Text → Except Stop (α × Text)) (w : Text) (v : α) : Prop where
  head : ∃ c t, w = c :: t ∧ isSpace c = false ∧ c ≠ ']'
  reads : ∀ rest, Apart rest → read (w ++ rest) = .ok (v, rest)

theorem Reads.apart {w : Text} {v : α} (h : Reads read w v) : ReadsApart read w v :=
  ⟨h.head, fun rest _ => h.reads rest⟩

section Lists
variable {ws : List Text} {vs : List α} {front gap back : Text}

theorem ReadsApart.nextItem_first {w : Text} {v : α} (h : ReadsApart read w v)
    (hf : ∀ c ∈ front, isSpace c = true) (rest : Text) :
    nextItem true (front ++ (w ++ rest)) = .ok (.more (w ++ rest)) := by
  obtain ⟨c, t, rfl, hs, hc⟩ := h.head
  rw [nextItem, skip_append hf, List.cons_append, skip_cons hs]
  simp

theorem ReadsApart.nextItem_comma {w : Text} {v : α} (h : ReadsApart read w v)
    (hg : ∀ c ∈ gap, isSpace c = true) (rest : Text) :
    nextItem false (',' :: (gap ++ (w ++ rest))) = .ok (.more (w ++ rest)) := by
  obtain ⟨c, t, rfl, hs, hc⟩ := h.head
  have hcomma : isSpace ',' = false := by decide
  rw [nextItem, skip_cons hcomma]
  simp [skip_append hg, skip_cons hs, hc]

theorem nextItem_close (hb : ∀ c ∈ back, isSpace c = true) (first : Bool) (rest : Text) :
    nextItem first (back ++ ']' :: rest) = .ok (.done rest) := by
  have hs : isSpace ']' = false := by decide
  simp [nextItem, skip_append hb, skip_cons hs]

/-- What follows an item, up to the end of its list, begins with a comma, a blank or the bracket. -/
theorem apart_behind_item (gap : Text) (hb : ∀ c ∈ back, isSpace c = true) (ws : List Text)
    (rest : Text) :
    Apart (ws.flatMap (fun w => ',' :: gap ++ w) ++ (back ++ ']' :: rest)) := by
  cases ws with
  | nil => exact (apart_cons (by decide) rest).behind_blanks hb
  | cons w ws => exact apart_cons (by decide) _

theorem items_behind (h : List.Forall₂ (ReadsApart read) ws vs) (hg : ∀ c ∈ gap, isSpace c = true)
    (hb : ∀ c ∈ back, isSpace c = true) {fuel : Nat} (hf : ws.length < fuel) (rest : Text) :
    items read fuel false (ws.flatMap (fun w => ',' :: gap ++ w) ++ (back ++ ']' :: rest)) =
      .ok (vs, rest) := by
  induction h generalizing fuel with
  | nil =>
    obtain ⟨n, rfl⟩ := Nat.exists_eq_add_of_lt hf
    simp [items, nextItem_close hb, bind, Except.bind]
  | @cons w v ws vs hw _ ih =>
    obtain ⟨n, rfl⟩ := Nat.exists_eq_add_of_lt hf
    have hl : ws.length < (w :: ws).length + n := by
      rw [List.length_cons]
      omega
    have ih := ih hl
    have hn := hw.nextItem_comma hg (ws.flatMap (fun w => ',' :: gap ++ w) ++ (back ++ ']' :: rest))
    have hr := hw.reads _ (apart_behind_item gap hb ws rest)
    simp only [List.flatMap_cons, List.append_assoc, List.cons_append] at hn hr ih ⊢
    simp only [items, hn, hr, ih, bind, Except.bind]

theorem items_join (h : List.Forall₂ (ReadsApart read) ws vs) (hfr : ∀ c ∈ front, isSpace c = true)
    (hg : ∀ c ∈ gap, isSpace c = true) (hb : ∀ c ∈ back, isSpace c = true)
    {fuel : Nat} (hf : ws.length < fuel) (rest : Text) :
    items read fuel true (front ++ (Text.join (',' :: gap) ws ++ (back ++ ']' :: rest))) =
      .ok (vs, rest) := by
  obtain ⟨n, rfl⟩ := Nat.exists_eq_add_of_lt hf
  cases h with
  | nil =>
    have hblank : ∀ c ∈ front ++ back, isSpace c = true := by
      intro c hc
      exact (List.mem_append.mp hc).elim (hfr c) (hb c)
    have hn := nextItem_close hblank true rest
    rw [List.append_assoc] at hn
    simp [items, Text.join, hn, bind, Except.bind]
  | @cons w v ws vs hw ht =>
    have hl : ws.length < (w :: ws).length + n := by
      rw [List.length_cons]
      omega
    have hi := items_behind ht hg hb hl rest
    have hn :=
      hw.nextItem_first hfr (ws.flatMap (fun w => ',' :: gap ++ w) ++ (back ++ ']' :: rest))
    have hr := hw.reads _ (apart_behind_item gap hb ws rest)
    simp only [Text.join_cons, List.append_assoc, items, hn, hr, hi, bind, Except.bind]

end Lists


section Objects
variable {front gap back : Text}

theorem nextKey_first (hf : ∀ c ∈ front, isSpace c = true) (rest : Text) :
    nextKey true (front ++ '"' :: rest) = .ok (.more rest) := by
  have hq : isSpace '"' = false := by decide
  simp [nextKey, skip_append hf, skip_cons hq]

theorem nextKey_comma (hg : ∀ c ∈ gap, isSpace c = true) (rest : Text) :
    nextKey false (',' :: (gap ++ '"' :: rest)) = .ok (.more rest) := by
  have hcomma : isSpace ',' = false := by decide
  have hq : isSpace '"' = false := by decide
  simp [nextKey, skip_cons hcomma, skip_append hg, skip_cons hq]

theorem nextKey_close (hb : ∀ c ∈ back, isSpace c = true) (first : Bool) (rest : Text) :
    nextKey first (back ++ '\x7d' :: rest) = .ok (.done rest) := by
  have hs : isSpace '\x7d' = false := by decide
  simp [nextKey, skip_append hb, skip_cons hs]

/-- A field is read from its written form: a name up to its closing quote, and a value. -/
structure ReadsField (read : Text → Except Stop (α × Text)) (w : Text × Text) (f : Text × α) :
    Prop where
  name : ∀ rest, stringBody (w.1 ++ '"' :: rest) = .ok (f.1, rest)
  value : Reads read w.2 f.2

def fieldText (w : Text × Text) : Text := '"' :: (w.1 ++ '"' :: ':' :: w.2)

variable {ws : List (Text × Text)} {fs : List (Text × α)}

theorem fields_step {w : Text × Text} {f : Text × α} (h : ReadsField read w f) {fuel : Nat}
    {first : Bool} {t r : Text}
    (hn : nextKey first t = .ok (.more (w.1 ++ '"' :: ':' :: (w.2 ++ r)))) :
    fields read (fuel + 1) first t =
      (fields read fuel false r).map fun others => (f :: others.1, others.2) := by
  have hcolon : isSpace ':' = false := by decide
  simp only [fields, hn, h.name, afterColon, skip_cons hcolon, h.value.reads, bind, Except.bind]
  cases fields read fuel false r with
  | error e => rfl
  | ok others => rfl

theorem fields_behind (h : List.Forall₂ (ReadsField read) ws fs) {fuel : Nat}
    (hf : ws.length < fuel) (rest : Text) :
    fields read fuel false (ws.flatMap (fun w => ',' :: fieldText w) ++ '\x7d' :: rest) =
      .ok (fs, rest) := by
  induction h generalizing fuel with
  | nil =>
    obtain ⟨n, rfl⟩ := Nat.exists_eq_add_of_lt hf
    have hclose : nextKey false ('\x7d' :: rest) = .ok (.done rest) :=
      nextKey_close no_blanks false rest
    simp [fields, hclose, bind, Except.bind]
  | @cons w f ws fs hw _ ih =>
    obtain ⟨n, rfl⟩ := Nat.exists_eq_add_of_lt hf
    rw [fields_step hw (r := ws.flatMap (fun w => ',' :: fieldText w) ++ '\x7d' :: rest),
      ih (by simp; omega)]
    · rfl
    · simpa [fieldText] using nextKey_comma no_blanks (w.1 ++ '"' :: ':' :: (w.2 ++
        (ws.flatMap (fun w => ',' :: fieldText w) ++ '\x7d' :: rest)))

theorem fields_join (h : List.Forall₂ (ReadsField read) ws fs) {fuel : Nat}
    (hf : ws.length < fuel) (rest : Text) :
    fields read fuel true (Text.join [','] (ws.map fieldText) ++ '\x7d' :: rest) =
      .ok (fs, rest) := by
  obtain ⟨n, rfl⟩ := Nat.exists_eq_add_of_lt hf
  cases h with
  | nil =>
    have hclose : nextKey true ('\x7d' :: rest) = .ok (.done rest) :=
      nextKey_close no_blanks true rest
    simp [fields, Text.join, hclose, bind, Except.bind]
  | @cons w f ws fs hw ht =>
    rw [fields_step hw (r := ws.flatMap (fun w => ',' :: fieldText w) ++ '\x7d' :: rest),
      fields_behind ht (by simp; omega)]
    · rfl
    · simpa [Text.join_cons, List.flatMap_map, fieldText] using
        nextKey_first no_blanks (w.1 ++ '"' :: ':' ::
          (w.2 ++ (ws.flatMap (fun w => ',' :: fieldText w) ++ '\x7d' :: rest)))

end Objects

section Whole
variable {depth : Nat}

theorem length_le_length_join {sep : Text} (hs : sep ≠ []) (ws : List Text) :
    ws.length ≤ (Text.join sep ws).length + 1 := by
  have hp := List.length_pos_iff.mpr hs
  cases ws with
  | nil => simp
  | cons w ws =>
    have hf : ws.length ≤ (ws.flatMap (sep ++ ·)).length := by
      induction ws with
      | nil => simp
      | cons v ws ih => simp only [List.flatMap_cons, List.length_append, List.length_cons]; omega
    rw [Text.join_cons, List.length_append, List.length_cons]
    omega

theorem reads_array {ws : List Text} {vs : List Json} {blanks : Text}
    (h : List.Forall₂ (Reads (value (depth + 1))) ws vs) (hb : ∀ c ∈ blanks, isSpace c = true) :
    Reads (value (depth + 2)) ('[' :: (Text.join (',' :: blanks) ws ++ [']'])) (.array vs) := by
  refine ⟨⟨'[', _, rfl, by decide, by decide⟩, fun rest => ?_⟩
  have hs : isSpace '[' = false := by decide
  have hl := length_le_length_join (List.cons_ne_nil ',' blanks) ws
  have hf : ws.length < (Text.join (',' :: blanks) ws ++ ']' :: rest).length + 1 := by
    rw [List.length_append, List.length_cons]
    omega
  have hi := items_join (h.imp fun _ _ => Reads.apart) no_blanks hb no_blanks hf rest
  simp only [List.length_append, List.length_cons, List.nil_append] at hi
  simp only [List.cons_append, List.append_assoc, List.nil_append]
  rw [value, skip_cons hs]
  simp [hi, bind, Except.bind]

theorem reads_object {ws : List (Text × Text)} {fs : List (Text × Json)}
    (h : List.Forall₂ (ReadsField (value (depth + 1))) ws fs) :
    Reads (value (depth + 2)) ('\x7b' :: (Text.join [','] (ws.map fieldText) ++ ['\x7d']))
      (.object (fs.foldl (fun sorted f => putField f.1 f.2 sorted) [])) := by
  refine ⟨⟨'\x7b', _, rfl, by decide, by decide⟩, fun rest => ?_⟩
  have hs : isSpace '\x7b' = false := by decide
  have hl := length_le_length_join (List.cons_ne_nil ',' []) (ws.map fieldText)
  rw [List.length_map] at hl
  have hf : ws.length < (Text.join [','] (ws.map fieldText) ++ '\x7d' :: rest).length + 1 := by
    rw [List.length_append, List.length_cons]
    omega
  have hi := fields_join h hf rest
  simp only [List.length_append, List.length_cons] at hi
  simp only [List.cons_append, List.append_assoc, List.nil_append]
  rw [value, skip_cons hs]
  simp [hi, bind, Except.bind]

theorem reads_string {spell : Char → Text} (h : ∀ c, Spells (spell c) c) (s : Text) :
    Reads (value (depth + 1)) ('"' :: (s.flatMap spell ++ ['"'])) (.string s) := by
  refine ⟨⟨'"', _, rfl, by decide, by decide⟩, fun rest => ?_⟩
  have hq : isSpace '"' = false := by decide
  simp only [List.cons_append, List.append_assoc, List.nil_append]
  rw [value, skip_cons hq]
  simp [stringBody_flatMap h, bind, Except.bind]

theorem reads_null : Reads (value (depth + 1)) ['n', 'u', 'l', 'l'] .null := by
  refine ⟨⟨'n', _, rfl, by decide, by decide⟩, fun rest => ?_⟩
  have hn : isSpace 'n' = false := by decide
  simp [value, skip_cons hn, word]

theorem reads_bool (b : Bool) : Reads (value (depth + 1)) (compact (.bool b)) (.bool b) := by
  have ht : isSpace 't' = false := by decide
  have hf : isSpace 'f' = false := by decide
  cases b with
  | false =>
    refine ⟨⟨'f', _, rfl, by decide, by decide⟩, fun rest => ?_⟩
    simp [compact, value, skip_cons hf, word]
  | true =>
    refine ⟨⟨'t', _, rfl, by decide, by decide⟩, fun rest => ?_⟩
    simp [compact, value, skip_cons ht, word]

theorem parse_of_reads {w : Text} {v : Json} (h : Reads (value 128) w v) : parse w = .ok v := by
  have hr := h.reads []
  rw [List.append_nil] at hr
  simp [parse, whole, hr, skip]

end Whole

end Json
end SourceMarks
