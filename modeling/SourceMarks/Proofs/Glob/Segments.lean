import SourceMarks.Glob.Split
import SourceMarks.Proofs.Text.Bytes

/-!
Segments of a pattern against the names of a path: a double star takes any number of names, and any
other segment one. Names are matched by their bytes, and by their characters if these are single
bytes.
-/
namespace SourceMarks.Glob
variable {segment n : Text} {segments names plain : List Text} {c : Char} {w : List UInt8}
  {α β : Type} {entries : List α} {fits fits' : Text → α → Prop}

/-- A star stands for any run of characters of a name, a question mark for one. -/
def SegmentMatches : (segment name : Text) → Prop
  | [], name => name = []
  | '*' :: segment, name => ∃ x y, name = x ++ y ∧ SegmentMatches segment y
  | '?' :: segment, name => ∃ c y, name = c :: y ∧ SegmentMatches segment y
  | c :: segment, name => ∃ y, name = c :: y ∧ SegmentMatches segment y

/-- A star stands for any run of bytes, a question mark for one, and any other character for its
own. -/
def SegmentTakes : (segment : Text) → List UInt8 → Prop
  | [], w => w = []
  | '*' :: segment, w => ∃ x y, w = x ++ y ∧ SegmentTakes segment y
  | '?' :: segment, w => ∃ b y, w = b :: y ∧ SegmentTakes segment y
  | c :: segment, w => ∃ y, w = String.utf8EncodeChar c ++ y ∧ SegmentTakes segment y

/-- A segment takes all bytes of a name. -/
def Fits (segment name : Text) : Prop := SegmentTakes segment name.bytes

def doubleStar : Text := ['*', '*']

/-- A double star takes any number of names, but one at least at the end. Any other segment takes
one name, which it matches. -/
def Aligned : (segments names : List Text) → Prop
  | [], names => names = []
  | segment :: segments, names =>
    if segment = doubleStar then
      ∃ front back, names = front ++ back ∧ (segments = [] → front ≠ []) ∧ Aligned segments back
    else ∃ name back, names = name :: back ∧ SegmentMatches segment name ∧ Aligned segments back

/-- Names in a row with segments, where each name fits the segment that takes it. A double star
takes any number of names, but one at least at the end, and any other segment takes one. -/
def AlignedBy (fits : (segment : Text) → (name : α) → Prop) :
    (segments : List Text) → (names : List α) → Prop
  | [], names => names = []
  | segment :: segments, names =>
    if segment = doubleStar then
      ∃ front back, names = front ++ back ∧ (segments = [] → front ≠ []) ∧
        (∀ n ∈ front, fits segment n) ∧ AlignedBy fits segments back
    else ∃ name back, names = name :: back ∧ fits segment name ∧ AlignedBy fits segments back

section Segment

theorem segmentMatches_literal (hstar : c ≠ '*') (hany : c ≠ '?') :
    SegmentMatches (c :: segment) n ↔ ∃ y, n = c :: y ∧ SegmentMatches segment y := by
  rw [SegmentMatches]
  · exact hstar
  · exact hany

theorem segmentTakes_literal (hstar : c ≠ '*') (hany : c ≠ '?') :
    SegmentTakes (c :: segment) w ↔
      ∃ y, w = String.utf8EncodeChar c ++ y ∧ SegmentTakes segment y := by
  rw [SegmentTakes]
  · exact hstar
  · exact hany

theorem fits_doubleStar (n : Text) : Fits doubleStar n :=
  ⟨n.bytes, [], by simp, [], [], rfl, rfl⟩

theorem segmentMatches_doubleStar (n : Text) : SegmentMatches doubleStar n :=
  ⟨n, [], by simp, [], [], rfl, rfl⟩

theorem ne_magic (h : isMagic c = false) : c ≠ '*' ∧ c ≠ '?' := by
  constructor <;> (rintro rfl; cases h)

theorem hasMagic_cons :
    hasMagic (c :: segment) = false ↔ isMagic c = false ∧ hasMagic segment = false := by
  simp [hasMagic]

/-- A segment without wildcards matches itself. -/
theorem segmentMatches_plain (h : hasMagic segment = false) :
    SegmentMatches segment n ↔ n = segment := by
  induction segment generalizing n with
  | nil => rfl
  | cons c segment ih =>
    obtain ⟨hc, hs⟩ := hasMagic_cons.mp h
    rw [segmentMatches_literal (ne_magic hc).1 (ne_magic hc).2]
    simp [ih hs]

theorem segmentTakes_plain (h : hasMagic segment = false) :
    SegmentTakes segment w ↔ w = segment.bytes := by
  induction segment generalizing w with
  | nil => rfl
  | cons c segment ih =>
    obtain ⟨hc, hs⟩ := hasMagic_cons.mp h
    rw [segmentTakes_literal (ne_magic hc).1 (ne_magic hc).2, Text.bytes_cons]
    simp [ih hs]

theorem fits_plain (h : hasMagic segment = false) : Fits segment n ↔ n = segment := by
  rw [Fits, segmentTakes_plain h]
  exact ⟨Text.bytes_inj, congrArg Text.bytes⟩

theorem ne_doubleStar (h : hasMagic segment = false) : segment ≠ doubleStar := by
  intro he
  rw [he] at h
  cases h

end Segment

section Ascii

/-- A text of characters that are single bytes. -/
def Ascii (t : Text) : Prop := ∀ c ∈ t, c.toNat < 128

/-- The byte of a character that is a single one. -/
def byteOf (c : Char) : UInt8 := UInt8.ofNat c.toNat

theorem utf8EncodeChar_of_ascii (h : c.toNat < 128) : String.utf8EncodeChar c = [byteOf c] := by
  have hle : c.val.toNat ≤ 127 := Nat.le_of_lt_succ h
  simp only [String.utf8EncodeChar, if_pos hle]
  rfl

theorem byteOf_inj {d : Char} (hc : c.toNat < 128) (hd : d.toNat < 128) :
    byteOf c = byteOf d ↔ c = d := by
  rw [byteOf, byteOf, ← UInt8.toNat_inj, UInt8.toNat_ofNat', UInt8.toNat_ofNat', ← Char.toNat_inj]
  omega

theorem bytes_of_ascii (h : Ascii n) : n.bytes = n.map byteOf := by
  induction n with
  | nil => rfl
  | cons c n ih =>
    obtain ⟨hc, hn⟩ := List.forall_mem_cons.mp h
    rw [Text.bytes_cons, utf8EncodeChar_of_ascii hc, ih hn]
    rfl

/-- Of single bytes a segment takes the characters that it matches. -/
theorem fits_iff_of_ascii (hs : Ascii segment) (hn : Ascii n) :
    Fits segment n ↔ SegmentMatches segment n := by
  rw [Fits, bytes_of_ascii hn]
  induction segment generalizing n with
  | nil => exact List.map_eq_nil_iff
  | cons c segment ih =>
    obtain ⟨hc, hrest⟩ := List.forall_mem_cons.mp hs
    by_cases hstar : c = '*'
    · subst hstar
      rw [SegmentTakes, SegmentMatches]
      constructor
      · rintro ⟨_, _, hxy, h⟩
        obtain ⟨x, y, rfl, rfl, rfl⟩ := List.map_eq_append_iff.mp hxy
        exact ⟨x, y, rfl, (ih hrest (List.forall_mem_append.mp hn).2).mp h⟩
      · rintro ⟨x, y, rfl, h⟩
        exact ⟨_, _, List.map_append, (ih hrest (List.forall_mem_append.mp hn).2).mpr h⟩
    by_cases hany : c = '?'
    · subst hany
      rw [SegmentTakes, SegmentMatches]
      constructor
      · rintro ⟨_, _, hby, h⟩
        obtain ⟨d, y, rfl, rfl, rfl⟩ := List.map_eq_cons_iff.mp hby
        exact ⟨d, y, rfl, (ih hrest (List.forall_mem_cons.mp hn).2).mp h⟩
      · rintro ⟨d, y, rfl, h⟩
        exact ⟨_, _, List.map_cons, (ih hrest (List.forall_mem_cons.mp hn).2).mpr h⟩
    · rw [segmentTakes_literal hstar hany, segmentMatches_literal hstar hany,
        utf8EncodeChar_of_ascii hc]
      constructor
      · rintro ⟨_, hby, h⟩
        obtain ⟨d, y, rfl, hd, rfl⟩ := List.map_eq_cons_iff.mp hby
        obtain ⟨hda, hn⟩ := List.forall_mem_cons.mp hn
        exact ⟨y, by rw [(byteOf_inj hda hc).mp hd], (ih hrest hn).mp h⟩
      · rintro ⟨y, rfl, h⟩
        exact ⟨_, List.map_cons, (ih hrest (List.forall_mem_cons.mp hn).2).mpr h⟩

end Ascii

section AlignedBy

theorem alignedBy_of_ne (h : segment ≠ doubleStar) : AlignedBy fits (segment :: segments) entries ↔
    ∃ name back, entries = name :: back ∧ fits segment name ∧ AlignedBy fits segments back := by
  rw [AlignedBy, if_neg h]

theorem alignedBy_nil (hn : segments ≠ []) : ¬ AlignedBy fits segments [] := by
  induction segments with
  | nil => exact absurd rfl hn
  | cons segment segments ih =>
    rw [AlignedBy]
    split
    · rintro ⟨front, back, he, hf, -, ha⟩
      obtain ⟨rfl, rfl⟩ := List.append_eq_nil_iff.mp he.symm
      by_cases hs : segments = []
      · exact hf hs rfl
      · exact ih hs ha
    · rintro ⟨name, back, he, -⟩
      cases he

theorem AlignedBy.imp (h : ∀ s ∈ segments, ∀ n ∈ entries, fits s n → fits' s n)
    (ha : AlignedBy fits segments entries) : AlignedBy fits' segments entries := by
  induction segments generalizing entries with
  | nil => exact ha
  | cons segment segments ih =>
    rw [List.forall_mem_cons] at h
    rw [AlignedBy] at ha ⊢
    split at ha
    · next hd =>
      obtain ⟨front, back, rfl, hf, hfits, ha⟩ := ha
      rw [if_pos hd]
      refine ⟨front, back, rfl, hf,
        fun n hm => h.1 n (List.mem_append_left back hm) (hfits n hm), ?_⟩
      exact ih (fun s hs n hm => h.2 s hs n (List.mem_append_right front hm)) ha
    · next hd =>
      obtain ⟨name, back, rfl, hfits, ha⟩ := ha
      rw [if_neg hd]
      refine ⟨name, back, rfl, h.1 name List.mem_cons_self hfits, ?_⟩
      exact ih (fun s hs n hm => h.2 s hs n (List.mem_cons_of_mem name hm)) ha

/-- What is in a row with segments can be looked at in another form. -/
theorem alignedBy_map {form : β → α} {entries : List β} :
    AlignedBy fits segments (entries.map form) ↔
      AlignedBy (fun s n => fits s (form n)) segments entries := by
  induction segments generalizing entries with
  | nil => exact List.map_eq_nil_iff
  | cons segment segments ih =>
    rw [AlignedBy, AlignedBy]
    split
    · constructor
      · rintro ⟨front, back, he, hf, hfits, ha⟩
        obtain ⟨front, back, rfl, rfl, rfl⟩ := List.map_eq_append_iff.mp he
        rw [List.forall_mem_map] at hfits
        exact ⟨front, back, rfl, fun hs he => hf hs (congrArg _ he), hfits, ih.mp ha⟩
      · rintro ⟨front, back, rfl, hf, hfits, ha⟩
        refine ⟨front.map form, back.map form, List.map_append, fun hs he => ?_, ?_, ih.mpr ha⟩
        · exact hf hs (List.map_eq_nil_iff.mp he)
        · rwa [List.forall_mem_map]
    · constructor
      · rintro ⟨name, back, he, hfits, ha⟩
        obtain ⟨name, back, rfl, rfl, rfl⟩ := List.map_eq_cons_iff.mp he
        exact ⟨name, back, rfl, hfits, ih.mp ha⟩
      · rintro ⟨name, back, rfl, hfits, ha⟩
        exact ⟨form name, back.map form, rfl, hfits, ih.mpr ha⟩

/-- Segments that only themselves fit are names themselves. -/
theorem alignedBy_plain_append {fits : Text → Text → Prop} (hd : doubleStar ∉ plain)
    (h : ∀ s ∈ plain, ∀ n, fits s n ↔ n = s) :
    AlignedBy fits (plain ++ segments) names ↔
      ∃ back, names = plain ++ back ∧ AlignedBy fits segments back := by
  induction plain generalizing names with
  | nil => simp
  | cons s plain ih =>
    rw [List.mem_cons, not_or] at hd
    rw [List.forall_mem_cons] at h
    rw [List.cons_append, alignedBy_of_ne (Ne.symm hd.1)]
    simp only [h.1, ih hd.2 h.2]
    constructor
    · intro ⟨name, _, hn, hs, back, hb, ha⟩
      exact ⟨back, by rw [hn, hs, hb]; rfl, ha⟩
    · intro ⟨back, hn, ha⟩
      exact ⟨s, plain ++ back, hn, rfl, back, rfl, ha⟩

theorem AlignedBy.length_eq (hd : doubleStar ∉ segments) (h : AlignedBy fits segments entries) :
    entries.length = segments.length := by
  induction segments generalizing entries with
  | nil => exact congrArg List.length h
  | cons s segments ih =>
    rw [List.mem_cons, not_or] at hd
    obtain ⟨name, back, hn, -, ha⟩ := (alignedBy_of_ne (Ne.symm hd.1)).mp h
    rw [hn, List.length_cons, List.length_cons, ih hd.2 ha]

section DoubleStar
variable (h : ∀ n, fits doubleStar n)
include h

theorem alignedBy_doubleStar : AlignedBy fits (doubleStar :: segments) entries ↔
    ∃ front back, entries = front ++ back ∧ (segments = [] → front ≠ []) ∧
      AlignedBy fits segments back := by
  rw [AlignedBy, if_pos rfl]
  simp [h]

theorem alignedBy_last : AlignedBy fits [doubleStar] entries ↔ entries ≠ [] := by
  rw [alignedBy_doubleStar h]
  constructor
  · rintro ⟨front, back, rfl, hf, -⟩ he
    exact hf rfl (List.append_eq_nil_iff.mp he).1
  · exact fun hn => ⟨entries, [], by simp, fun _ => hn, rfl⟩

theorem alignedBy_doubleStars (hn : segments ≠ []) (hd : ∀ s ∈ segments, s = doubleStar) :
    AlignedBy fits segments entries ↔ entries ≠ [] := by
  induction segments generalizing entries with
  | nil => exact absurd rfl hn
  | cons segment segments ih =>
    rw [List.forall_mem_cons] at hd
    obtain ⟨rfl, hd⟩ := hd
    by_cases hs : segments = []
    · rw [hs, alignedBy_last h]
    · rw [alignedBy_doubleStar h]
      constructor
      · rintro ⟨front, back, rfl, -, ha⟩ he
        exact (ih hs hd).mp ha (List.append_eq_nil_iff.mp he).2
      · exact fun hne => ⟨[], entries, rfl, fun he => absurd he hs, (ih hs hd).mpr hne⟩

end DoubleStar

end AlignedBy

section Aligned

theorem aligned_iff : Aligned segments names ↔ AlignedBy SegmentMatches segments names := by
  induction segments generalizing names with
  | nil => rfl
  | cons segment segments ih =>
    by_cases hd : segment = doubleStar
    · subst hd
      rw [Aligned, if_pos rfl, alignedBy_doubleStar segmentMatches_doubleStar]
      simp only [ih]
    · rw [Aligned, if_neg hd, alignedBy_of_ne hd]
      simp only [ih]

theorem alignedBy_fits_iff (hs : ∀ s ∈ segments, Ascii s) (hn : ∀ n ∈ names, Ascii n) :
    AlignedBy Fits segments names ↔ Aligned segments names := by
  have h : ∀ s ∈ segments, ∀ n ∈ names, (Fits s n ↔ SegmentMatches s n) :=
    fun s hm n hm' => fits_iff_of_ascii (hs s hm) (hn n hm')
  rw [aligned_iff]
  exact ⟨AlignedBy.imp fun s hm n hm' => (h s hm n hm').mp,
    AlignedBy.imp fun s hm n hm' => (h s hm n hm').mpr⟩

theorem aligned_nil (hn : segments ≠ []) : ¬ Aligned segments [] := by
  rw [aligned_iff]
  exact alignedBy_nil hn

theorem length_of_aligned (hd : doubleStar ∉ segments) (h : Aligned segments names) :
    names.length = segments.length :=
  (aligned_iff.mp h).length_eq hd

/-- Segments without wildcards are names themselves. -/
theorem aligned_plain_append (h : ∀ s ∈ plain, hasMagic s = false) :
    Aligned (plain ++ segments) names ↔ ∃ back, names = plain ++ back ∧ Aligned segments back := by
  have hd : doubleStar ∉ plain := fun hm => ne_doubleStar (h _ hm) rfl
  simp only [aligned_iff]
  exact alignedBy_plain_append hd fun s hs n => segmentMatches_plain (h s hs)

theorem aligned_plain (h : ∀ s ∈ segments, hasMagic s = false) :
    Aligned segments names ↔ names = segments := by
  rw [← List.append_nil segments, aligned_plain_append h]
  simp [Aligned]

end Aligned

end SourceMarks.Glob
