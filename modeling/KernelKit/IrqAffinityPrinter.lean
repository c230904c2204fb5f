import KernelKit.IrqAffinity

/-!
# The kernel's bitmap printer and its inverse

Linux prints a set of core numbers below `nbits` as groups of 32 bits in lower-case hexadecimal digits,
the most significant group first. The leading group has as many digits as its bits need, the others
eight. `parseIrqAffinity` reads the set back, also from a text in which the groups are spelt in another
way and more groups, all zero, stand before them.
-/

namespace KernelKit.Affinity
open RustString BitGroups

def groupCount (nbits : ℕ) : ℕ := (nbits + 31) / 32

def groupDigits (nbits i : ℕ) : ℕ := (min 32 (nbits - 32 * i) + 3) / 4

def printGroups (nbits : ℕ) (s : Finset ℕ) : List (List Char) :=
  ((List.range (groupCount nbits)).map fun i =>
    printHex (groupDigits nbits i) (groupOf 32 s i)).reverse

def printMask (nbits : ℕ) (s : Finset ℕ) : List Char :=
  [','].intercalate (printGroups nbits s) ++ ['\n']

example : printMask 40 {0, 31, 33} = "02,80000001\n".toList := by decide

def Respelt (text text' : List Char) : Prop :=
  ∃ before pre digits after, text' = before ++ (pre ++ digits) ++ after ∧
    (∀ c ∈ before, isWhitespace c = true) ∧ (∀ c ∈ after, isWhitespace c = true) ∧
    pre ∈ [[], ['0', 'x'], ['0', 'X']] ∧
    List.Forall₂ (fun c c' => c' = c ∨ c' = c.toUpper) text digits

/-! ### One group -/

variable {n value : ℕ} {text text' digits : List Char}

def IsHex (text : List Char) : Prop := ∀ c ∈ text, (toDigit16 c).isSome

theorem toDigit16_toUpper {digit : ℕ} (h : digit < 16) :
    toDigit16 (Nat.digitChar digit).toUpper = some digit := by
  have hall : ∀ digit : Fin 16, toDigit16 (Nat.digitChar digit).toUpper = some digit.val := by decide
  exact hall ⟨digit, h⟩

theorem toDigit16_recased (h : List.Forall₂ (fun c c' => c' = c ∨ c' = c.toUpper) text digits)
    (htext : ∀ c ∈ text, ∃ digit < 16, c = Nat.digitChar digit) :
    List.Forall₂ (fun c c' => toDigit16 c' = toDigit16 c) text digits ∧ IsHex digits := by
  induction h with
  | nil => exact ⟨.nil, nofun⟩
  | @cons c c' text digits hc _ ih =>
      obtain ⟨⟨digit, hdigit, rfl⟩, htext'⟩ := List.forall_mem_cons.mp htext
      obtain ⟨hsame, hhex⟩ := ih htext'
      have hvalue : toDigit16 c' = some digit := by
        rcases hc with rfl | rfl
        · exact toDigit16_digitChar hdigit
        · exact toDigit16_toUpper hdigit
      refine ⟨.cons (hvalue.trans (toDigit16_digitChar hdigit).symm) hsame,
        List.forall_mem_cons.mpr ⟨?_, hhex⟩⟩
      rw [hvalue]
      rfl

theorem IsHex.not_mem {c : Char} (h : IsHex digits) (hc : toDigit16 c = none) : c ∉ digits := by
  intro hmem
  have := h c hmem
  rw [hc] at this
  cases this

theorem IsHex.isWhitespace (h : IsHex digits) : ∀ c ∈ digits, isWhitespace c = false := by
  intro c hc
  obtain ⟨digit, hdigit⟩ := Option.isSome_iff_exists.mp (h c hc)
  exact isWhitespace_of_toDigit16 hdigit

theorem IsHex.stripHexPrefix (h : IsHex digits) : stripHexPrefix digits = digits := by
  unfold Affinity.stripHexPrefix
  split
  · next hexStr => exact absurd (by simp) (h.not_mem (c := 'x') (by decide))
  · next hexStr => exact absurd (by simp) (h.not_mem (c := 'X') (by decide))
  · rfl

theorem IsHex.fromStrRadix16 (h : IsHex digits) (hne : digits ≠ []) (max : ℕ) :
    fromStrRadix16 max digits = parseHexDigits max 0 digits := by
  have hplus : '+' ∉ digits := h.not_mem (by decide)
  rw [fromStrRadix16.eq_def]
  split
  · exact absurd rfl hne
  · exact absurd List.mem_cons_self hplus
  · exact absurd List.mem_cons_self hplus
  · rfl

theorem printHex_ne_nil (hn : 0 < n) (value : ℕ) : printHex n value ≠ [] := by
  cases n with
  | zero => exact absurd hn (Nat.lt_irrefl 0)
  | succ n => exact List.append_ne_nil_of_right_ne_nil _ (List.cons_ne_nil _ _)

theorem printHex_zero (n : ℕ) : printHex n 0 = List.replicate n '0' := by
  induction n with
  | zero => rfl
  | succ n ih =>
      rw [printHex, Nat.zero_div, ih, List.replicate_succ']
      rfl

/-- However a printed group is spelt, it is read as its value. -/
theorem groupMask_respelt (hn : 0 < n) (hvalue : value < 16 ^ n) (hmax : value < 2 ^ 64)
    (h : Respelt (printHex n value) text') : groupMask text' = some value ∧ ',' ∉ text' := by
  obtain ⟨before, pre, digits, after, rfl, hbefore, hafter, hpre, hcase⟩ := h
  obtain ⟨hsame, hhex⟩ := toDigit16_recased hcase fun c hc => exists_digit_of_mem_printHex hc
  have hne : digits ≠ [] := by
    rintro rfl
    exact printHex_ne_nil hn value (List.forall₂_nil_right_iff.mp hcase)
  have hread : fromStrRadix16 (2 ^ 64 - 1) digits = some value := by
    rw [hhex.fromStrRadix16 hne, parseHexDigits_congr hsame]
    exact parseHexDigits_printHex hvalue (by omega)
  have hpre' : (∀ c ∈ pre, isWhitespace c = false) ∧ ',' ∉ pre ∧
      stripHexPrefix (pre ++ digits) = digits := by
    rcases hpre with _ | ⟨_, _ | ⟨_, _ | ⟨_, ⟨⟩⟩⟩⟩
    · exact ⟨nofun, nofun, hhex.stripHexPrefix⟩
    · exact ⟨List.forall_mem_cons.mpr ⟨rfl, List.forall_mem_singleton.mpr rfl⟩, by decide, rfl⟩
    · exact ⟨List.forall_mem_cons.mpr ⟨rfl, List.forall_mem_singleton.mpr rfl⟩, by decide, rfl⟩
  obtain ⟨hwhite, hcomma, hstrip⟩ := hpre'
  constructor
  · rw [groupMask, trim_extend hafter, trim_prepend hbefore,
      trim_eq_self (List.forall_mem_append.mpr ⟨hwhite, hhex.isWhitespace⟩), hstrip, hread]
  · simp only [List.mem_append, not_or]
    exact ⟨⟨not_mem_of_isWhitespace rfl hbefore, hcomma, hhex.not_mem (by decide)⟩,
      not_mem_of_isWhitespace rfl hafter⟩

/-! ### The whole mask -/

theorem mapM_groupMask_trim {chunks chunks' : List (List Char)}
    (h : chunks.map trim = chunks'.map trim) : chunks.mapM groupMask = chunks'.mapM groupMask := by
  have hmap (chunks : List (List Char)) : chunks.mapM groupMask =
      (chunks.map trim).mapM fun chunk => fromStrRadix16 (2 ^ 64 - 1) (stripHexPrefix chunk) := by
    rw [List.mapM_map]
    rfl
  rw [hmap, hmap, h]

theorem groupMasks_intercalate {texts : List (List Char)} {tail : List Char} (hne : texts ≠ [])
    (hcomma : ∀ text ∈ texts, ',' ∉ text) (htail : ∀ c ∈ tail, isWhitespace c = true) :
    groupMasks ([','].intercalate texts ++ tail) = texts.reverse.mapM groupMask := by
  refine mapM_groupMask_trim ?_
  rw [List.map_reverse, List.map_reverse, map_trim_splitOn_trim rfl, map_trim_splitOn_extend rfl htail,
    List.splitOn_intercalate _ hcomma hne]

/-- Groups as numbers of digits and values, printed and then spelt in another way, are read as their
values. -/
theorem mapM_groupMask_respelt {groups : List (ℕ × ℕ)} {texts : List (List Char)}
    (hgroups : ∀ group ∈ groups, 0 < group.1 ∧ group.2 < 16 ^ group.1 ∧ group.2 < 2 ^ 64)
    (h : List.Forall₂ (fun group text => Respelt (printHex group.1 group.2) text) groups texts) :
    texts.mapM groupMask = some (groups.map Prod.snd) ∧ ∀ text ∈ texts, ',' ∉ text := by
  induction h with
  | nil => exact ⟨rfl, nofun⟩
  | cons hrespelt _ ih =>
      obtain ⟨⟨hn, hvalue, hmax⟩, hrest⟩ := List.forall_mem_cons.mp hgroups
      obtain ⟨hmasks, hcommas⟩ := ih hrest
      obtain ⟨hmask, hcomma⟩ := groupMask_respelt hn hvalue hmax hrespelt
      exact ⟨mapM_groupMask_cons.mpr ⟨_, _, hmask, hmasks, rfl⟩,
        List.forall_mem_cons.mpr ⟨hcomma, hcommas⟩⟩

theorem groupDigits_pos {nbits i : ℕ} (hi : i < groupCount nbits) : 0 < groupDigits nbits i := by
  unfold groupCount at hi
  unfold groupDigits
  omega

theorem groupOf_lt_digits {nbits : ℕ} {s : Finset ℕ} (hs : ∀ core ∈ s, core < nbits) (i : ℕ) :
    groupOf 32 s i < 16 ^ groupDigits nbits i := by
  have hbits : groupOf 32 s i < 2 ^ min 32 (nbits - 32 * i) := by
    rcases Nat.le_total 32 (nbits - 32 * i) with hle | hle
    · rw [Nat.min_eq_left hle]
      exact Nat.ofBits_lt_two_pow _
    · rw [Nat.min_eq_right hle]
      exact groupOf_lt fun core hcore => by have := hs core hcore; omega
  refine hbits.trans_le ?_
  rw [show (16 : ℕ) = 2 ^ 4 from rfl, ← Nat.pow_mul]
  refine Nat.pow_le_pow_right Nat.two_pos ?_
  unfold groupDigits
  omega

def printedGroups (nbits : ℕ) (s : Finset ℕ) : List (ℕ × ℕ) :=
  ((List.range (groupCount nbits)).map fun i => (groupDigits nbits i, groupOf 32 s i)).reverse

def paddedGroups (zeros : List ℕ) (nbits : ℕ) (s : Finset ℕ) : List (ℕ × ℕ) :=
  zeros.map (fun n => (n, 0)) ++ printedGroups nbits s

theorem printGroups_eq (nbits : ℕ) (s : Finset ℕ) :
    printGroups nbits s = (printedGroups nbits s).map fun group => printHex group.1 group.2 := by
  rw [printGroups, printedGroups, List.map_reverse, List.map_map]
  rfl

theorem u32_le_usize (w : Width) : 2 ^ 32 ≤ 2 ^ w.bits := by cases w <;> decide

theorem respelt_self (text : List Char) : Respelt text text :=
  ⟨[], [], text, [], by simp, nofun, nofun, by simp, List.forall₂_same.mpr fun _ _ => Or.inl rfl⟩

theorem values_reverse (zeros : List ℕ) (nbits : ℕ) (s : Finset ℕ) :
    (paddedGroups zeros nbits s).reverse.map Prod.snd =
      (List.range (groupCount nbits)).map (groupOf 32 s) ++ List.replicate zeros.length 0 := by
  rw [paddedGroups, printedGroups, List.reverse_append, List.reverse_reverse, List.map_append, List.map_map,
    List.map_reverse, List.map_map, Function.comp_def, Function.comp_def, List.map_const',
    List.reverse_replicate]

theorem groupMasks_respelt {nbits : ℕ} {s : Finset ℕ} (hpos : 1 ≤ nbits)
    (hs : ∀ core ∈ s, core < nbits) {zeros : List ℕ} {texts : List (List Char)} {tail : List Char}
    (hzeros : ∀ n ∈ zeros, 0 < n)
    (htexts : List.Forall₂ Respelt
      ((zeros.map fun n => List.replicate n '0') ++ printGroups nbits s) texts)
    (htail : ∀ c ∈ tail, isWhitespace c = true) :
    groupMasks ([','].intercalate texts ++ tail) =
      some ((List.range (groupCount nbits)).map (groupOf 32 s) ++ List.replicate zeros.length 0) := by
  have hprinted : (zeros.map fun n => List.replicate n '0') ++ printGroups nbits s =
      (paddedGroups zeros nbits s).map fun group => printHex group.1 group.2 := by
    rw [paddedGroups, List.map_append, List.map_map, printGroups_eq]
    simp only [Function.comp_def, printHex_zero]
  have hgroups : ∀ group ∈ paddedGroups zeros nbits s,
      0 < group.1 ∧ group.2 < 16 ^ group.1 ∧ group.2 < 2 ^ 64 := by
    refine List.forall_mem_append.mpr ⟨List.forall_mem_map.mpr fun n hn => ?_, fun group hgroup => ?_⟩
    · exact ⟨hzeros n hn, Nat.pow_pos (by decide), Nat.two_pow_pos 64⟩
    · obtain ⟨i, hi, rfl⟩ := List.mem_map.mp (List.mem_reverse.mp hgroup)
      refine ⟨groupDigits_pos (List.mem_range.mp hi), groupOf_lt_digits hs i, ?_⟩
      exact (Nat.ofBits_lt_two_pow _).trans (by decide)
  rw [hprinted, List.forall₂_map_left_iff] at htexts
  have hne : texts ≠ [] := by
    rintro rfl
    have hnil := (List.append_eq_nil_iff.mp (List.forall₂_nil_right_iff.mp htexts)).2
    rw [printedGroups, List.reverse_eq_nil_iff, List.map_eq_nil_iff, List.range_eq_nil,
      groupCount] at hnil
    omega
  obtain ⟨hmasks, -⟩ := mapM_groupMask_respelt
    (fun group hgroup => hgroups group (List.mem_reverse.mp hgroup)) (List.forall₂_reverse_iff.mpr htexts)
  rw [groupMasks_intercalate hne (mapM_groupMask_respelt hgroups htexts).2 htail, hmasks,
    values_reverse]

/-- For any set of core numbers below `nbits`, what Linux prints is read as the set in ascending order.
So is any text with the same groups in another spelling and with groups of zeros before them. -/
theorem parseIrqAffinity_printMask (w : Width) {nbits : ℕ} {s : Finset ℕ} (hpos : 1 ≤ nbits)
    (hmax : nbits ≤ 2 ^ 32) (hs : ∀ core ∈ s, core < nbits) :
    parseIrqAffinity w (printMask nbits s) = .ok s.sort ∧
      ∀ (zeros : List ℕ) (texts : List (List Char)) (tail : List Char), (∀ n ∈ zeros, 0 < n) →
        List.Forall₂ Respelt ((zeros.map fun n => List.replicate n '0') ++ printGroups nbits s) texts →
        (∀ c ∈ tail, isWhitespace c = true) →
        parseIrqAffinity w ([','].intercalate texts ++ tail) = .ok s.sort := by
  have hread (zeros : List ℕ) (texts : List (List Char)) (tail : List Char)
      (hzeros : ∀ n ∈ zeros, 0 < n)
      (htexts : List.Forall₂ Respelt
        ((zeros.map fun n => List.replicate n '0') ++ printGroups nbits s) texts)
      (htail : ∀ c ∈ tail, isWhitespace c = true) :
      parseIrqAffinity w ([','].intercalate texts ++ tail) = .ok s.sort := by
    have hbelow : ∀ core ∈ s, core < 32 * groupCount nbits := by
      intro core hcore
      have := hs core hcore
      unfold groupCount
      omega
    have hlt : ∀ core ∈ s.sort, core < 2 ^ 32 :=
      fun core hcore => (hs core ((Finset.mem_sort _).mp hcore)).trans_le hmax
    have hcores : s.sort.map (· % 2 ^ w.bits) = s.sort :=
      (List.map_congr_left fun core hcore =>
        Nat.mod_eq_of_lt ((hlt core hcore).trans_le (u32_le_usize w))).trans (List.map_id' _)
    refine (parseIrqAffinity_eq_ok_iff (groupMasks_respelt hpos hs hzeros htexts htail)).mpr ?_
    rw [positions_groupOf hbelow fun group hgroup => List.eq_of_mem_replicate hgroup, hcores]
    exact ⟨hlt, rfl⟩
  refine ⟨?_, hread⟩
  exact hread [] _ ['\n'] nofun (List.forall₂_same.mpr fun text _ => respelt_self text)
    (List.forall_mem_singleton.mpr rfl)

/-- Cores 0, 31 and 33 of 40, printed, and then in another spelling behind a group of three zeros. -/
theorem parseIrqAffinity_printMask_forty :
    parseIrqAffinity .w64 (printMask 40 {0, 31, 33}) = .ok ({0, 31, 33} : Finset ℕ).sort ∧
      parseIrqAffinity .w64 "000, 0X02 ,80000001".toList = .ok ({0, 31, 33} : Finset ℕ).sort := by
  obtain ⟨hprinted, hrespelt⟩ := parseIrqAffinity_printMask .w64 (show 1 ≤ 40 by decide)
    (by decide) (show ∀ core ∈ ({0, 31, 33} : Finset ℕ), core < 40 by simp)
  refine ⟨hprinted, hrespelt [3] [['0', '0', '0'], [' ', '0', 'X', '0', '2', ' '],
    ['8', '0', '0', '0', '0', '0', '0', '1']] [] (by simp) ?_ nofun⟩
  have hspace : ∀ c ∈ [' '], isWhitespace c = true := List.forall_mem_singleton.mpr rfl
  refine .cons (respelt_self _) (.cons ⟨[' '], ['0', 'X'], ['0', '2'], [' '], rfl, hspace, hspace,
    by simp, List.forall₂_same.mpr fun _ _ => Or.inl rfl⟩ (.cons (respelt_self _) .nil))

end KernelKit.Affinity
