import Deferral.Batch.Settings
import Deferral.Proofs.Spelling
import Mathlib.Data.List.DropRight

/-!
# What a path consists of

A path is an anchor, which is the root or a dot that it begins with, and names (`components_eq`). Joining appends names
(`names_join`) and the parent is the path without its last name (`names_parent`). So the path of an output has the names
of a directory, then those of a stem, as it is shown, with the suffix.
-/

namespace Deferral

open List

/-! ## Names as text -/

namespace Utf8

theorem toList_loop (bytes : ByteArray) (i : Nat) (read : List UInt8) :
    ByteArray.toList.loop bytes i read = read.reverse ++ bytes.data.toList.drop i := by
  fun_induction ByteArray.toList.loop bytes i read with
  | case1 i read h ih =>
    have hi : i < bytes.data.size := h
    have hrest : bytes.data.toList.drop i = bytes.data[i] :: bytes.data.toList.drop (i + 1) :=
      drop_eq_getElem_cons (by simpa using hi)
    rw [ih, hrest]
    simp [ByteArray.get!, getElem!_pos bytes.data i hi]
  | case2 i read h =>
    have hi : bytes.data.toList.length ≤ i := Nat.le_of_not_lt h
    rw [drop_eq_nil_of_le hi, append_nil]

theorem encode_eq_toList (s : String) : encode s = s.toByteArray.data.toList := toList_loop _ 0 []

/-- The bytes of a text are those of its characters. -/
theorem encode_eq (s : String) : encode s = s.toList.flatMap String.utf8EncodeChar := by
  have hbytes : s.toByteArray = (s.toList.flatMap String.utf8EncodeChar).toByteArray := by
    rw [← List.utf8Encode, ← String.toByteArray_ofList, String.ofList_toList]
  rw [encode_eq_toList, hbytes]
  simp

theorem encode_append (s t : String) : encode (s ++ t) = encode s ++ encode t := by
  rw [encode_eq, encode_eq, encode_eq, String.toList_append, flatMap_append]

theorem encode_inj {s t : String} : encode s = encode t ↔ s = t := by
  refine ⟨fun h => ?_, congrArg encode⟩
  rw [encode_eq_toList, encode_eq_toList] at h
  exact String.toByteArray_inj.1 (ByteArray.ext (Array.toList_inj.1 h))

theorem encode_eq_nil {s : String} : encode s = [] ↔ s = "" := by
  rw [← encode_inj]
  exact Iff.of_eq (congrArg _ (by decide +kernel))

theorem eq_slash {c : Char} (h : Path.slash ∈ String.utf8EncodeChar c) : c = '/' := by
  obtain ⟨n, hn, hb⟩ : ∃ n : Nat, n = 0x2F ∧ UInt8.ofNat n ∈ String.utf8EncodeChar c := ⟨0x2F, rfl, h⟩
  have hmod {m k : Nat} : UInt8.ofNat m = UInt8.ofNat k ↔ m % 256 = k % 256 := by
    rw [← UInt8.toNat_inj, UInt8.toNat_ofNat', UInt8.toNat_ofNat']
  rw [String.utf8EncodeChar] at hb
  repeat' split at hb
  all_goals simp only [mem_cons, not_mem_nil, or_false, hmod] at hb
  · exact Char.toNat_inj.1 (show c.val.toNat = 47 by omega)
  all_goals omega

/-- A character of one byte is the byte that it is read from. -/
theorem exists_lead {c : Char} (hc : c.utf8Size = 1) {pending : Option Partial} {bytes : List UInt8}
    (hp : ∀ p ∈ pending, ∃ n, 1 < n ∧ p.Fits n) (h : some c ∈ decodeFrom pending bytes) :
    ∃ b ∈ bytes, lead b = .char c := by
  have hbegin {b : UInt8} {p : Partial} (hb : lead b = .more p) : ∀ q ∈ some p, ∃ n, 1 < n ∧ q.Fits n := by
    rintro q ⟨⟩
    exact ⟨1 + p.owed, Nat.lt_add_of_pos_right (fits_lead hb).owed, fits_lead hb⟩
  have hlater {b : UInt8} {rest : List UInt8} : (∃ b' ∈ rest, lead b' = .char c) →
      ∃ b' ∈ b :: rest, lead b' = .char c :=
    fun h => h.imp fun _ => And.imp_left (mem_cons_of_mem _)
  fun_induction decodeFrom pending bytes with
  | case1 => simp at h
  | case2 => simp at h
  | case3 b rest d hb ih =>
    rcases mem_cons.1 h with heq | h
    · exact ⟨b, mem_cons_self, by rw [hb, Option.some.inj heq]⟩
    · exact hlater (ih (by simp) h)
  | case4 b rest p hb ih => exact hlater (ih (hbegin hb) h)
  | case5 b rest hb ih => exact hlater (ih (by simp) (by simpa using h))
  | case6 p b rest hrange ho ih =>
    -- the last byte of a character of several bytes
    obtain ⟨n, hn, hfits⟩ := hp p rfl
    rcases mem_cons.1 h with heq | h
    · have := (hfits.push hrange).1 ho
      rw [← Option.some.inj heq] at this
      omega
    · exact hlater (ih (by simp) h)
  | case7 p b rest hrange ho ih =>
    obtain ⟨n, hn, hfits⟩ := hp p rfl
    exact hlater (ih (fun q hq => ⟨n, hn, Option.some.inj hq ▸ (hfits.push hrange).2 ho⟩) h)
  | case8 p b rest hrange d hb ih =>
    rcases mem_cons.1 ((mem_cons.1 h).resolve_left nofun) with heq | h
    · exact ⟨b, mem_cons_self, by rw [hb, Option.some.inj heq]⟩
    · exact hlater (ih (by simp) h)
  | case9 p b rest hrange q hb ih => exact hlater (ih (hbegin hb) (by simpa using h))
  | case10 p b rest hrange hb ih => exact hlater (ih (by simp) (by simpa using h))

/-- Showing a name makes no slash. -/
theorem slash_mem_of_lossy {bytes : List UInt8} (h : Path.slash ∈ encode (lossy bytes)) : Path.slash ∈ bytes := by
  rw [encode_eq, mem_flatMap] at h
  obtain ⟨c, hc, hslash⟩ := h
  obtain rfl := eq_slash hslash
  rw [lossy, String.toList_ofList] at hc
  obtain ⟨c?, hc, heq⟩ := mem_map.1 hc
  cases c? with
  | none => exact absurd heq (by decide)
  | some c =>
    obtain rfl : c = '/' := heq
    obtain ⟨b, hb, hlead⟩ := exists_lead rfl (by simp) hc
    unfold lead at hlead
    split at hlead
    · next hsmall =>
      have hsingle : ∀ n < 0x80, Char.ofNat n = '/' → n = 0x2F := by decide
      have hnat : b.toNat = Path.slash.toNat :=
        hsingle b.toNat (UInt8.lt_iff_toNat_lt.1 hsmall) (Lead.char.inj hlead)
      exact UInt8.toNat_inj.1 hnat ▸ hb
    · repeat' split at hlead
      all_goals cases hlead

end Utf8

namespace Path

/-- The parts of a path that mean something. -/
def names (path : Path) : List Name := (parts path).filter (!isVoid ·)

/-- What a path begins with if not with a name. -/
def anchor? (path : Path) : Option Name :=
  if isAbsolute path then some [slash] else if (parts path).head? = some [dot] then some [dot] else none

variable {path other base a b : Path} {name part : Name}

theorem same_iff : same path other = true ↔ components path = components other := beq_iff_eq

theorem same_refl (path : Path) : same path path = true := same_iff.2 rfl

theorem same_symm (h : same path other = true) : same other path = true := same_iff.2 (same_iff.1 h).symm

theorem same_trans {third : Path} (h : same path other = true) (h' : same other third = true) :
    same path third = true := same_iff.2 ((same_iff.1 h).trans (same_iff.1 h'))

/-! ## Parts -/

theorem parts_eq (path : Path) : parts path = path.splitOn slash := by
  induction path with
  | nil => rfl
  | cons b rest ih =>
    rw [parts, ih, List.splitOn, List.splitOn, splitOnP_cons_eq_if_modifyHead]
    cases h : rest.splitOnP (· == slash) with
    | nil => exact absurd h (splitOnP_ne_nil _ _)
    | cons part more => rfl

theorem parts_ne_nil (path : Path) : parts path ≠ [] := by
  rw [parts_eq]
  exact splitOnP_ne_nil _ _

theorem parts_slash (a b : Path) : parts (a ++ slash :: b) = parts a ++ parts b := by
  rw [parts_eq, parts_eq, parts_eq]
  exact splitOnP_append_cons _ _ (beq_self_eq_true slash)

theorem parts_root (a : Path) : parts (slash :: a) = [] :: parts a := parts_slash [] a

/-- Bytes before the first slash belong to the first part. -/
theorem parts_append {first : Name} {rest : List Name} (ha : slash ∉ a) (hb : parts b = first :: rest) :
    parts (a ++ b) = (a ++ first) :: rest := by
  induction a with
  | nil => exact hb
  | cons c a ih =>
    rw [mem_cons, not_or] at ha
    simp [parts, ih ha.2, Ne.symm ha.1]

theorem slash_notMem_part (h : part ∈ parts path) : slash ∉ part := by
  induction path generalizing part with
  | nil => simp [mem_singleton.1 h]
  | cons b rest ih =>
    rw [parts] at h
    split at h
    · next hp => exact absurd hp (parts_ne_nil rest)
    · next first more hp =>
      have hmore : ∀ p ∈ first :: more, slash ∉ p := fun p hm => ih (hp ▸ hm)
      split at h
      · rcases mem_cons.1 h with rfl | h
        · simp
        · exact hmore part h
      · next hb =>
        have hne : slash ≠ b := fun h => hb (by simp [h])
        rcases mem_cons.1 h with rfl | h
        · simpa [hne] using hmore first mem_cons_self
        · exact hmore part (mem_cons_of_mem _ h)

theorem parts_intercalate {ps : List Name} (hs : ∀ p ∈ ps, slash ∉ p) (hne : ps ≠ []) :
    parts ([slash].intercalate ps) = ps := by
  rw [parts_eq, splitOn_intercalate slash hs hne]

theorem isAbsolute_root (a : Path) : isAbsolute (slash :: a) = true := beq_self_eq_true _

theorem eq_slash_of_isAbsolute (h : isAbsolute path = true) : ∃ rest, path = slash :: rest := by
  have hhead : path.head? = some slash := by simpa [isAbsolute] using h
  exact head?_eq_some_iff.1 hhead

/-- Only the empty path begins with an empty part and not with a slash. -/
theorem eq_nil_of_parts {rest : List Name} (h : isAbsolute path = false) (hp : parts path = [] :: rest) :
    path = [] := by
  cases path with
  | nil => rfl
  | cons b bs =>
    have hne : b ≠ slash := by
      rintro rfl
      simp [isAbsolute_root] at h
    rw [parts] at hp
    split at hp <;> simp [hne] at hp

theorem isVoid_nil : isVoid [] = true := rfl

theorem isVoid_dot : isVoid [dot] = true := rfl

theorem isVoid_eq_false : isVoid part = false ↔ part ≠ [] ∧ part ≠ [dot] := by
  simp [isVoid]

theorem split_cases (path : Path) :
    (∃ r, path = slash :: r ∧ split path = (some [slash], parts r)) ∨
    (∃ rest, isAbsolute path = false ∧ parts path = [dot] :: rest ∧ split path = (some [dot], rest)) ∨
    (path = [] ∧ split path = (none, [])) ∨
    ∃ first rest, isAbsolute path = false ∧ parts path = first :: rest ∧ isVoid first = false ∧
      split path = (none, first :: rest) := by
  cases ha : isAbsolute path with
  | true =>
    obtain ⟨r, rfl⟩ := eq_slash_of_isAbsolute ha
    exact .inl ⟨r, rfl, by simp [split, parts_root, ha]⟩
  | false =>
    right
    cases hp : parts path with
    | nil => exact absurd hp (parts_ne_nil path)
    | cons first rest =>
      by_cases hdot : first = [dot]
      · subst hdot
        exact .inl ⟨rest, rfl, rfl, by simp [split, hp]⟩
      · by_cases hempty : first = []
        · subst hempty
          obtain rfl := eq_nil_of_parts ha hp
          exact .inr (.inl ⟨rfl, rfl⟩)
        · exact .inr (.inr ⟨first, rest, rfl, rfl, isVoid_eq_false.2 ⟨hempty, hdot⟩, by simp [split, hp, hdot, hempty]⟩)

theorem split_eq (path : Path) : (split path).1 = anchor? path ∧ (split path).2.filter (!isVoid ·) = names path := by
  unfold anchor? names
  rcases split_cases path with ⟨r, rfl, h⟩ | ⟨rest, ha, hp, h⟩ | ⟨rfl, h⟩ | ⟨first, rest, ha, hp, hv, h⟩
  · simp [h, isAbsolute_root, parts_root, isVoid_nil]
  · simp [h, ha, hp, isVoid_dot]
  · exact ⟨rfl, rfl⟩
  · simp [h, ha, hp, (isVoid_eq_false.1 hv).2]

theorem components_eq (path : Path) : components path = (anchor? path).toList ++ names path := by
  rw [← (split_eq path).1, ← (split_eq path).2]
  rfl

theorem ne_slash_of_mem_names (h : name ∈ names path) : name ≠ [slash] := by
  rintro rfl
  exact slash_notMem_part (mem_filter.1 h).1 mem_cons_self

theorem anchor?_eq (path : Path) :
    anchor? path = (components path).head?.filter fun c => c == [slash] || c == [dot] := by
  rw [components_eq]
  cases ha : anchor? path with
  | some x =>
    have hx : x = [slash] ∨ x = [dot] := by
      unfold anchor? at ha
      grind
    rcases hx with rfl | rfl <;> rfl
  | none =>
    cases hn : names path with
    | nil => rfl
    | cons name rest =>
      have hmem : name ∈ names path := hn ▸ mem_cons_self
      have hdot : name ≠ [dot] := by
        rintro rfl
        simp [names, isVoid_dot] at hmem
      simp [Option.filter, ne_slash_of_mem_names hmem, hdot]

theorem eq_of_same (h : same path other = true) : anchor? path = anchor? other ∧ names path = names other := by
  have hc := same_iff.1 h
  have ha : anchor? path = anchor? other := by rw [anchor?_eq, anchor?_eq, hc]
  rw [components_eq, components_eq, ha, append_cancel_left_eq] at hc
  exact ⟨ha, hc⟩

theorem same_of_eq (ha : anchor? path = anchor? other) (hn : names path = names other) : same path other = true := by
  rw [same_iff, components_eq, components_eq, ha, hn]

theorem filter_dropWhile_isVoid (ps : List Name) :
    (ps.dropWhile isVoid).filter (!isVoid ·) = ps.filter (!isVoid ·) ∧
      (ps.dropWhile isVoid).head? = ps.find? (!isVoid ·) := by
  induction ps with
  | nil => exact ⟨rfl, rfl⟩
  | cons p ps ih => cases hp : isVoid p <;> simp [hp, ih]

theorem getLast?_dropVoids (ps : List Name) : (dropVoids ps).getLast? = (ps.filter (!isVoid ·)).getLast? := by
  rw [dropVoids, getLast?_reverse, (filter_dropWhile_isVoid _).2, getLast?_filter]

theorem filter_dropVoids (ps : List Name) : (dropVoids ps).filter (!isVoid ·) = ps.filter (!isVoid ·) := by
  rw [dropVoids, filter_reverse, (filter_dropWhile_isVoid _).1, ← filter_reverse, reverse_reverse]

theorem fileName?_eq (path : Path) : fileName? path = (names path).getLast?.filter (· != [dot, dot]) := by
  rw [fileName?, getLast?_dropVoids, (split_eq path).2]
  cases (names path).getLast? with
  | none => rfl
  | some name => cases h : name == [dot, dot] <;> simp [Option.filter, h, bne]

/-! ## Parents -/

theorem dropVoids_isPrefix (ps : List Name) : dropVoids ps <+: ps := rdropWhile_prefix isVoid ps

theorem names_intercalate {ps : List Name} (hs : ∀ p ∈ ps, slash ∉ p) :
    names ([slash].intercalate ps) = ps.filter (!isVoid ·) := by
  cases ps with
  | nil => rfl
  | cons p ps => rw [names, parts_intercalate hs (cons_ne_nil p ps)]

theorem names_root (a : Path) : names (slash :: a) = names a := by
  simp [names, parts_root, isVoid_nil]

theorem anchor?_root (a : Path) : anchor? (slash :: a) = some [slash] := by
  simp [anchor?, isAbsolute_root]

theorem isAbsolute_intercalate {ps : List Name} (hs : slash ∉ part) (hne : part ≠ []) :
    isAbsolute ([slash].intercalate (part :: ps)) = false := by
  cases part with
  | nil => exact absurd rfl hne
  | cons c cs =>
    rw [mem_cons, not_or] at hs
    cases ps <;> simp [isAbsolute, List.intercalate, Ne.symm hs.1]

/-- The parts between the anchor and the last name of a path. -/
def kept (path : Path) : List Name := dropVoids (dropVoids (split path).2).dropLast

theorem kept_prefix (path : Path) : kept path <+: (split path).2 :=
  (dropVoids_isPrefix _).trans ((List.dropLast_prefix _).trans (dropVoids_isPrefix _))

theorem names_eq_kept (h : fileName? path = some name) : names path = (kept path).filter (!isVoid ·) ++ [name] := by
  rw [fileName?_eq, Option.filter_eq_some_iff] at h
  have hmem : name ∈ names path := mem_of_getLast? h.1
  have hlast : (dropVoids (split path).2).getLast? = some name := by
    rw [getLast?_dropVoids, (split_eq path).2]
    exact h.1
  have hvoid : isVoid name = false := by simpa using (mem_filter.1 hmem).2
  have hname : [name].filter (!isVoid ·) = [name] := by simp [hvoid]
  rw [← (split_eq path).2, ← filter_dropVoids, ← dropLast_append_getLast? name hlast, filter_append, kept,
    filter_dropVoids, hname]

/-- The parent of a file begins as the file does and has all names but the last. -/
theorem parent_eq (h : fileName? path = some name) :
    anchor? (parent path) = anchor? path ∧ names path = names (parent path) ++ [name] := by
  rw [names_eq_kept h, append_cancel_right_eq]
  have hpre := kept_prefix path
  rcases split_cases path with ⟨r, rfl, hs⟩ | ⟨rest, ha, hp, hs⟩ | ⟨rfl, hs⟩ | ⟨first, rest, ha, hp, hv, hs⟩
  · rw [hs] at hpre
    have hparent : parent (slash :: r) = slash :: [slash].intercalate (kept (slash :: r)) := by simp [parent, kept, hs]
    have hslash : ∀ p ∈ kept (slash :: r), slash ∉ p := fun p hp => slash_notMem_part (hpre.subset hp)
    rw [hparent, anchor?_root, anchor?_root, names_root, names_intercalate hslash]
    exact ⟨rfl, rfl⟩
  · rw [hs] at hpre
    have hparent : parent path = [slash].intercalate ([dot] :: kept path) := by
      simp [parent, kept, hs, show dot ≠ slash by decide]
    have hparts : [dot] :: kept path ⊆ parts path := hp ▸ (prefix_cons_inj [dot]).2 hpre |>.subset
    have hslash : ∀ p ∈ [dot] :: kept path, slash ∉ p := fun p hm => slash_notMem_part (hparts hm)
    rw [hparent, names_intercalate hslash]
    refine ⟨?_, by simp [isVoid_dot]⟩
    rw [anchor?, anchor?, isAbsolute_intercalate (hslash [dot] mem_cons_self) (by decide),
      parts_intercalate hslash (cons_ne_nil _ _), ha, hp]
    rfl
  · simp [fileName?, hs, dropVoids] at h
  · rw [hs] at hpre
    have hparent : parent path = [slash].intercalate (kept path) := by simp [parent, kept, hs]
    have hparts : kept path ⊆ parts path := hp ▸ hpre.subset
    have hslash : ∀ p ∈ kept path, slash ∉ p := fun p hm => slash_notMem_part (hparts hm)
    obtain ⟨hempty, hdot⟩ := isVoid_eq_false.1 hv
    rw [hparent, names_intercalate hslash]
    refine ⟨?_, rfl⟩
    cases hk : kept path with
    | nil => simp [anchor?, ha, hp, hdot]; decide
    | cons k ks =>
      rw [hk] at hpre hslash
      obtain ⟨rfl, -⟩ := cons_prefix_cons.1 hpre
      simp [anchor?, isAbsolute_intercalate (hslash k mem_cons_self) hempty, ha, hp, hdot,
        parts_intercalate hslash (cons_ne_nil _ _)]

/-! ## Joining -/

/-- Behind a base, a relative path stands after a slash, which is written unless the base ends with one. -/
theorem exists_join (hb : base ≠ []) (hn : isAbsolute name = false) :
    ∃ a, join base name = a ++ slash :: name ∧ (base = a ∨ base = a ++ [slash]) := by
  rw [join, hn]
  cases hl : base.getLast? == some slash with
  | false => exact ⟨base, by simp [hb], .inl rfl⟩
  | true =>
    obtain ⟨front, rfl⟩ := getLast?_eq_some_iff.1 (by simpa using hl)
    exact ⟨front, by simp, .inr rfl⟩

theorem join_nil (name : Path) : join [] name = name := by
  simp [join]

theorem names_slash (a b : Path) : names (a ++ slash :: b) = names a ++ names b := by
  simp [names, parts_slash]

theorem anchor?_slash (ha : a ≠ []) (b : Path) : anchor? (a ++ slash :: b) = anchor? a := by
  have habs : isAbsolute (a ++ slash :: b) = isAbsolute a := by
    simp [isAbsolute, head?_append_of_ne_nil _ ha]
  rw [anchor?, anchor?, habs, parts_slash, head?_append_of_ne_nil _ (parts_ne_nil a)]

theorem names_join (hn : isAbsolute name = false) : names (join base name) = names base ++ names name := by
  by_cases hb : base = []
  · rw [hb, join_nil]
    rfl
  · obtain ⟨a, hj, rfl | rfl⟩ := exists_join hb hn
    · rw [hj, names_slash]
    · have hempty : names [] = [] := rfl
      rw [hj, names_slash, names_slash, hempty, append_nil]

theorem anchor?_join (hb : base ≠ []) (hn : isAbsolute name = false) : anchor? (join base name) = anchor? base := by
  obtain ⟨a, hj, rfl | rfl⟩ := exists_join hb hn
  · rw [hj, anchor?_slash hb]
  · cases a with
    | nil => rw [hj, nil_append, nil_append, anchor?_root, anchor?_root]
    | cons b a => rw [hj, anchor?_slash (cons_ne_nil _ _), anchor?_slash (cons_ne_nil _ _)]

theorem eq_nil_of_components (h : components path = []) : path = [] := by
  rw [components_eq, append_eq_nil_iff, Option.toList_eq_nil_iff] at h
  obtain ⟨hanchor, hnames⟩ := h
  rcases split_cases path with ⟨r, rfl, -⟩ | ⟨rest, ha, hp, -⟩ | ⟨rfl, -⟩ | ⟨first, rest, ha, hp, hv, -⟩
  · simp [anchor?_root] at hanchor
  · simp [anchor?, ha, hp] at hanchor
  · rfl
  · simp [names, hp, hv] at hnames

/-- The components of a joined path are a matter of the components of its base. -/
theorem same_join (h : same base other = true) (name : Path) : same (join base name) (join other name) = true := by
  have hc := same_iff.1 h
  rw [same_iff]
  cases hn : isAbsolute name with
  | true => simp [join, hn]
  | false =>
    by_cases hb : base = []
    · have ho : other = [] := eq_nil_of_components (by rw [← hc, hb]; rfl)
      rw [hb, ho]
    · have ho : other ≠ [] := fun ho => hb (eq_nil_of_components (by rw [hc, ho]; rfl))
      rw [components_eq, anchor?_join hb hn, names_join hn, ← append_assoc, ← components_eq, hc, components_eq other,
        append_assoc, ← names_join hn, ← anchor?_join ho hn, ← components_eq]

theorem components_join (hn : isAbsolute name = false) (ha : anchor? name = none) :
    components (join base name) = components base ++ names name := by
  by_cases hb : base = []
  · rw [hb, join_nil, components_eq, ha]
    rfl
  · rw [components_eq, anchor?_join hb hn, names_join hn, ← append_assoc, ← components_eq]

/-! ## Stems -/

theorem exists_splitName (hne : name ≠ []) :
    ∃ ending, name = (splitName name).1 ++ ending ∧ (splitName name).1 ≠ [] := by
  unfold splitName
  have heq := prefix_iff_eq_append.1 (List.takeWhile_prefix (· != dot) (l := name.reverse))
  dsimp only
  split
  · exact ⟨[], by simp, hne⟩
  · next d before hdrop =>
    split
    · exact ⟨[], by simp, hne⟩
    · next hb =>
      rw [hdrop] at heq
      have hname := congrArg List.reverse heq
      rw [reverse_reverse] at hname
      refine ⟨d :: (name.reverse.takeWhile (· != dot)).reverse, ?_, by simpa using hb⟩
      exact hname.symm.trans (by simp)

theorem exists_stem (h : stem? path = some a) : ∃ name, fileName? path = some name ∧ a ≠ [] ∧ slash ∉ a := by
  obtain ⟨name, hname, rfl⟩ := Option.map_eq_some_iff.1 h
  have hmem : name ∈ names path := by
    rw [fileName?_eq, Option.filter_eq_some_iff] at hname
    exact mem_of_getLast? hname.1
  obtain ⟨hpart, hvoid⟩ := mem_filter.1 hmem
  obtain ⟨ending, heq, hstem⟩ := exists_splitName (isVoid_eq_false.1 (by simpa using hvoid)).1
  refine ⟨name, hname, hstem, fun hs => slash_notMem_part hpart ?_⟩
  rw [heq]
  exact mem_append_left _ hs

end Path

/-! ## Outputs -/

namespace Settings

variable {s : Settings} {p q : Path} {a b : Path.Name}

/-- The suffix does not swallow a stem: a stem that is shown as a dot has something of the suffix behind it before a
slash. -/
def StemStays (s : Settings) (stem : Path.Name) : Prop :=
  Utf8.lossy stem = "." → s.suffix ≠ "" ∧ Path.isAbsolute (Utf8.encode s.suffix) = false

instance (s : Settings) (stem : Path.Name) : Decidable (s.StemStays stem) := inferInstanceAs (Decidable (_ → _))

/-- The name of an output is a first name, which begins as the stem is shown, and what the suffix has after it. -/
theorem names_outputName (ha : a ≠ []) (hs : Path.slash ∉ a) (hh : s.StemStays a) :
    Path.isAbsolute (s.outputName a) = false ∧ Path.anchor? (s.outputName a) = none ∧
      ∃ first rest, Path.parts (Utf8.encode s.suffix) = first :: rest ∧
        Path.names (s.outputName a) = (Utf8.encode (Utf8.lossy a) ++ first) :: rest.filter (!Path.isVoid ·) := by
  have hshown : Utf8.encode (Utf8.lossy a) ≠ [] := by
    rw [Ne, Utf8.encode_eq_nil]
    exact fun h => by simpa [h] using Utf8.lossy_ne_empty ha
  have hslash : Path.slash ∉ Utf8.encode (Utf8.lossy a) := mt Utf8.slash_mem_of_lossy hs
  rw [outputName, Utf8.encode_append]
  cases hp : Path.parts (Utf8.encode s.suffix) with
  | nil => exact absurd hp (Path.parts_ne_nil _)
  | cons first rest =>
    have hdot : Utf8.encode (Utf8.lossy a) ++ first ≠ [Path.dot] := by
      intro h
      rcases append_eq_singleton_iff.1 h with ⟨h₁, -⟩ | ⟨h₁, rfl⟩
      · exact hshown h₁
      · have hlossy : Utf8.lossy a = "." := Utf8.encode_inj.1 (h₁.trans (by decide +kernel))
        exact (hh hlossy).1 (Utf8.encode_eq_nil.1 (Path.eq_nil_of_parts (hh hlossy).2 hp))
    have habs : Path.isAbsolute (Utf8.encode (Utf8.lossy a) ++ Utf8.encode s.suffix) = false := by
      cases hc : Utf8.encode (Utf8.lossy a) with
      | nil => exact absurd hc hshown
      | cons c cs =>
        rw [hc, mem_cons, not_or] at hslash
        simp [Path.isAbsolute, Ne.symm hslash.1]
    have hparts := Path.parts_append hslash hp
    refine ⟨habs, ?_, first, rest, rfl, ?_⟩
    · simp [Path.anchor?, habs, hparts, hdot]
    · simp [Path.names, hparts, Path.isVoid, hshown, hdot]

/-- The directory for the output of an input. -/
def folder (s : Settings) (input : Path) : Path :=
  match s.outDir? with
  | some dir => dir
  | none => match Path.fileName? input with
    | some _ => Path.parent input
    | none => input

theorem outputPath_eq (s : Settings) (p : Path) :
    s.outputPath p = Path.join (s.folder p) (s.outputName ((Path.stem? p).getD [])) := by
  unfold outputPath folder Path.withFileName
  cases s.outDir? with
  | some dir => rfl
  | none => cases Path.fileName? p <;> rfl

theorem same_outputPath (h : Path.same p q = true) : Path.same (s.outputPath p) (s.outputPath q) = true := by
  obtain ⟨hanchor, hnames⟩ := Path.eq_of_same h
  have hname : Path.fileName? p = Path.fileName? q := by rw [Path.fileName?_eq, Path.fileName?_eq, hnames]
  have hfolder : Path.same (s.folder p) (s.folder q) = true := by
    unfold folder
    rw [← hname]
    split
    · exact Path.same_refl _
    · cases hn : Path.fileName? p with
      | none => exact h
      | some name =>
        obtain ⟨hpa, hpn⟩ := Path.parent_eq hn
        obtain ⟨hqa, hqn⟩ := Path.parent_eq (hname ▸ hn)
        refine Path.same_of_eq (by rw [hpa, hqa, hanchor]) ?_
        rw [hpn, hqn, append_cancel_right_eq] at hnames
        exact hnames
  rw [outputPath_eq, outputPath_eq, Path.stem?, Path.stem?, hname]
  exact Path.same_join hfolder _

theorem components_outputPath (hp : Path.stem? p = some a) (hh : s.StemStays a) :
    Path.components (s.outputPath p) = Path.components (s.folder p) ++ Path.names (s.outputName a) := by
  obtain ⟨_, -, ha, hs⟩ := Path.exists_stem hp
  obtain ⟨habs, hanchor, -⟩ := names_outputName ha hs hh
  rw [outputPath_eq, hp]
  exact Path.components_join habs hanchor

theorem same_outputPath_iff (hp : Path.stem? p = some a) (hq : Path.stem? q = some b) (ha : s.StemStays a)
    (hb : s.StemStays b) :
    Path.same (s.outputPath p) (s.outputPath q) = true ↔
      Utf8.lossy a = Utf8.lossy b ∧ (s.outDir?.isSome ∨ Path.same (Path.parent p) (Path.parent q) = true) := by
  obtain ⟨name, hname, hane, has⟩ := Path.exists_stem hp
  obtain ⟨name', hname', hbne, hbs⟩ := Path.exists_stem hq
  obtain ⟨-, -, first, rest, hfirst, han⟩ := names_outputName hane has ha
  obtain ⟨-, -, first', rest', hfirst', hbn⟩ := names_outputName hbne hbs hb
  obtain ⟨rfl, rfl⟩ := List.cons.inj (hfirst.symm.trans hfirst')
  have hfolder : Path.components (s.folder p) = Path.components (s.folder q) ↔
      s.outDir?.isSome ∨ Path.same (Path.parent p) (Path.parent q) = true := by
    unfold folder
    cases s.outDir? with
    | some dir => simp
    | none => simp [hname, hname', Path.same_iff]
  rw [Path.same_iff, components_outputPath hp ha, components_outputPath hq hb, han, hbn, ← hfolder]
  constructor
  · intro h
    obtain ⟨hf, hn⟩ := append_inj' h rfl
    exact ⟨Utf8.encode_inj.1 (append_cancel_right (List.cons.inj hn).1), hf⟩
  · rintro ⟨hstem, hf⟩
    rw [hf, hstem]

end Settings

end Deferral
