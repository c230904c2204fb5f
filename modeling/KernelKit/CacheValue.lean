import KernelKit.Error
import KernelKit.RustNumber

/-!
# Cache sizes with a unit

`parseCacheValue` reads the numbers of the sysfs cache files: the text is brought to upper case, one unit
is cut off, and the number before it is scaled with checked multiplications. Its units overlap, as `B`
ends three others, so the order in which they are tried matters to the code; it does not show in the
texts that are accepted.
-/

namespace KernelKit.CpuFeatures
open RustString

def checkedMul (w : Width) (a b : ℕ) : Option ℕ := if a * b ≤ w.usizeMax then some (a * b) else none

def scale (w : Width) : ℕ → ℕ → Option ℕ
  | 0, size => some size
  | steps + 1, size => (checkedMul w size 1024).bind (scale w steps)

def stripUnit : List (List Char) → List Char → Option (List Char)
  | [], _ => none
  | suffix :: suffixes, s => (s.dropSuffix? suffix).or (stripUnit suffixes s)

def unitFamilies : List (List (List Char) × ℕ) :=
  [([['G', 'I', 'B'], ['G', 'B'], ['G']], 3), ([['M', 'I', 'B'], ['M', 'B'], ['M']], 2),
    ([['K', 'I', 'B'], ['K', 'B'], ['K']], 1), ([['B', 'Y', 'T', 'E', 'S'], ['B']], 0)]

def takeUnit : List (List (List Char) × ℕ) → List Char → Option (List Char × ℕ)
  | [], _ => none
  | (suffixes, steps) :: families, s =>
    match stripUnit suffixes s with
    | some val => some (val, steps)
    | none => takeUnit families s

def parseCacheValue (w : Width) (raw : List Char) : Except Unit ℕ :=
  let trimmed := (trim raw).map Char.toUpper
  if trimmed = [] then .error ()
  else
    match takeUnit unitFamilies trimmed with
    | some (val, steps) =>
      match (parseUnsigned w.usizeMax (trim val)).bind (scale w steps) with
      | some size => .ok size
      | none => .error ()
    | none =>
      match parseUnsigned w.usizeMax trimmed with
      | some size => .ok size
      | none => .error ()

example : parseCacheValue .w64 " 32 KiB\n".toList = .ok 32768 := by decide

/-! ### Scaling -/

variable {w : Width} {size steps n v : ℕ}

theorem scale_eq_some_iff (hsize : size ≤ w.usizeMax) :
    scale w steps size = some v ↔ v = size * 1024 ^ steps ∧ v ≤ w.usizeMax := by
  induction steps generalizing size with
  | zero =>
      rw [scale, pow_zero, Nat.mul_one, Option.some.injEq, eq_comm]
      exact ⟨fun heq => ⟨heq, heq ▸ hsize⟩, And.left⟩
  | succ steps ih =>
      have hsplit : size * 1024 ^ (steps + 1) = size * 1024 * 1024 ^ steps := by
        rw [pow_succ']
        exact (Nat.mul_assoc ..).symm
      rw [scale, checkedMul]
      by_cases hstep : size * 1024 ≤ w.usizeMax
      · rw [if_pos hstep, Option.bind_some, ih hstep, hsplit]
      · rw [if_neg hstep, Option.bind_none]
        refine iff_of_false (by simp) ?_
        rintro ⟨rfl, hmax⟩
        rw [hsplit] at hmax
        exact hstep ((Nat.le_mul_of_pos_right _ (Nat.pow_pos (by decide))).trans hmax)

/-! ### Units -/

theorem stripUnit_eq_some {suffixes : List (List Char)} {s val : List Char}
    (h : stripUnit suffixes s = some val) : ∃ unit ∈ suffixes, s = val ++ unit := by
  induction suffixes with
  | nil => cases h
  | cons suffix suffixes ih =>
      rw [stripUnit, Option.or_eq_some_iff] at h
      rcases h with h | ⟨-, h⟩
      · obtain ⟨suffix', hs, hsame⟩ := List.dropSuffix?_eq_some_iff.mp h
        rw [beq_iff_eq] at hsame
        exact ⟨suffix, List.mem_cons_self, hsame ▸ hs⟩
      · obtain ⟨unit, hmem, hs⟩ := ih h
        exact ⟨unit, List.mem_cons_of_mem _ hmem, hs⟩

theorem takeUnit_eq_some {families : List (List (List Char) × ℕ)} {s val : List Char}
    (h : takeUnit families s = some (val, steps)) :
    ∃ family ∈ families, ∃ unit ∈ family.1, s = val ++ unit ∧ family.2 = steps := by
  induction families with
  | nil => cases h
  | cons family families ih =>
      obtain ⟨suffixes, steps'⟩ := family
      rw [takeUnit] at h
      cases hstrip : stripUnit suffixes s with
      | some val' =>
          rw [hstrip] at h
          cases h
          obtain ⟨unit, hmem, hs⟩ := stripUnit_eq_some hstrip
          exact ⟨_, List.mem_cons_self, unit, hmem, hs, rfl⟩
      | none =>
          rw [hstrip] at h
          obtain ⟨family, hmem, hunit⟩ := ih h
          exact ⟨family, List.mem_cons_of_mem _ hmem, hunit⟩

/-! ### The grammar -/

variable {body unit : List Char}

theorem dropSuffix?_append {suffix : List Char} (hbody : ∀ c ∈ body, c.isUpper = false)
    (hsuffix : ∀ c ∈ suffix, c.isUpper = true) :
    (body ++ unit).dropSuffix? suffix = (unit.dropSuffix? suffix).map (body ++ ·) := by
  have hiff (l p : List Char) : l.dropSuffix? suffix = some p ↔ l = p ++ suffix := by
    rw [List.dropSuffix?_eq_some_iff]
    simp
  refine Option.ext fun val => ?_
  rw [hiff, Option.map_eq_some_iff]
  simp only [hiff]
  constructor
  · intro h
    rcases List.append_eq_append_iff.mp h with ⟨front, rfl, rfl⟩ | ⟨front, rfl, rfl⟩
    · exact ⟨front, rfl, rfl⟩
    · cases front with
      | nil => exact ⟨[], rfl, by simp⟩
      | cons c front =>
          have hlower := hbody c (by simp)
          rw [hsuffix c (by simp)] at hlower
          cases hlower
  · rintro ⟨front, rfl, rfl⟩
    exact (List.append_assoc ..).symm

theorem stripUnit_append {suffixes : List (List Char)} (hbody : ∀ c ∈ body, c.isUpper = false)
    (hsuffixes : ∀ suffix ∈ suffixes, ∀ c ∈ suffix, c.isUpper = true) :
    stripUnit suffixes (body ++ unit) = (stripUnit suffixes unit).map (body ++ ·) := by
  induction suffixes with
  | nil => rfl
  | cons suffix suffixes ih =>
      obtain ⟨hsuffix, hsuffixes⟩ := List.forall_mem_cons.mp hsuffixes
      rw [stripUnit, stripUnit, dropSuffix?_append hbody hsuffix, ih hsuffixes]
      cases unit.dropSuffix? suffix <;> rfl

theorem takeUnit_append {families : List (List (List Char) × ℕ)}
    (hbody : ∀ c ∈ body, c.isUpper = false)
    (hfamilies : ∀ family ∈ families, ∀ suffix ∈ family.1, ∀ c ∈ suffix, c.isUpper = true) :
    takeUnit families (body ++ unit) = (takeUnit families unit).map fun x => (body ++ x.1, x.2) := by
  induction families with
  | nil => rfl
  | cons family families ih =>
      obtain ⟨hfamily, hfamilies⟩ := List.forall_mem_cons.mp hfamilies
      rw [takeUnit, takeUnit, stripUnit_append hbody hfamily]
      cases stripUnit family.1 unit with
      | none => exact ih hfamilies
      | some val => rfl

def cacheUnits : List (List Char × ℕ) :=
  [([], 0), (['B'], 0), (['B', 'Y', 'T', 'E', 'S'], 0), (['K'], 1), (['K', 'B'], 1),
    (['K', 'I', 'B'], 1), (['M'], 2), (['M', 'B'], 2), (['M', 'I', 'B'], 2), (['G'], 3),
    (['G', 'B'], 3), (['G', 'I', 'B'], 3)]

/-- The text is a number and a unit, which whitespace may separate. -/
def IsCacheValue (text : List Char) (v : ℕ) : Prop :=
  ∃ number space unit steps n, text = number ++ space ++ unit ∧ Denotes number n ∧
    (∀ c ∈ space, isWhitespace c = true) ∧ (unit = [] → space = []) ∧ (unit, steps) ∈ cacheUnits ∧
    v = n * 1024 ^ steps

theorem isUpper_of_unit : ∀ family ∈ unitFamilies, ∀ suffix ∈ family.1, ∀ c ∈ suffix,
    c.isUpper = true := by
  simp only [unitFamilies, List.forall_mem_cons, List.not_mem_nil, false_imp_iff, implies_true,
    and_true]
  decide

theorem mem_cacheUnits : ∀ family ∈ unitFamilies, ∀ unit ∈ family.1,
    (unit, family.2) ∈ cacheUnits ∧ unit ≠ [] := by
  simp [unitFamilies, cacheUnits]

theorem takeUnit_of_mem : ∀ u ∈ cacheUnits, u.1 ≠ [] → takeUnit unitFamilies u.1 = some ([], u.2) := by
  simp only [cacheUnits, List.forall_mem_cons, List.not_mem_nil, false_imp_iff, implies_true, and_true]
  exact ⟨fun hne => absurd rfl hne, fun _ => rfl, fun _ => rfl, fun _ => rfl, fun _ => rfl, fun _ => rfl,
    fun _ => rfl, fun _ => rfl, fun _ => rfl, fun _ => rfl, fun _ => rfl, fun _ => rfl⟩

theorem isUpper_of_body {number space : List Char} (hnumber : Denotes number n)
    (hspace : ∀ c ∈ space, isWhitespace c = true) : ∀ c ∈ number ++ space, c.isUpper = false := by
  intro c hc
  rw [← Bool.not_eq_true]
  intro hupper
  have hrange := of_decide_eq_true hupper
  have hlow : 65 ≤ c.toNat := UInt32.le_iff_toNat_le.mp hrange.1
  have hhigh : c.toNat ≤ 90 := UInt32.le_iff_toNat_le.mp hrange.2
  rcases List.mem_append.mp hc with hc | hc
  · rcases hnumber.mem hc with hdigit | rfl
    · simp only [Char.isDigit, Bool.and_eq_true, decide_eq_true_eq, UInt32.le_iff_toNat_le] at hdigit
      have hnine : c.toNat ≤ 57 := hdigit.2
      omega
    · cases hupper
  · have hwhite := hspace c hc
    rw [isWhitespace_of_letter (Or.inl ⟨hlow, hhigh⟩)] at hwhite
    cases hwhite

theorem takeUnit_body {number space : List Char} (hnumber : Denotes number n)
    (hspace : ∀ c ∈ space, isWhitespace c = true) (hmem : (unit, steps) ∈ cacheUnits)
    (hne : unit ≠ []) : takeUnit unitFamilies (number ++ space ++ unit) = some (number ++ space, steps) := by
  rw [takeUnit_append (isUpper_of_body hnumber hspace) isUpper_of_unit, takeUnit_of_mem _ hmem hne]
  simp

theorem takeUnit_number {number : List Char} (hnumber : Denotes number n) :
    takeUnit unitFamilies number = none := by
  have hnone : takeUnit unitFamilies (number ++ [] ++ []) =
      (takeUnit unitFamilies []).map fun x => (number ++ [] ++ x.1, x.2) :=
    takeUnit_append (isUpper_of_body hnumber (List.forall_mem_nil _)) isUpper_of_unit
  rwa [List.append_nil, List.append_nil] at hnone

/-- Before the unit of a trimmed text there is a number and whitespace behind it. -/
theorem exists_space {s val : List Char} (hs : s = val ++ unit)
    (hhead : ∀ c cs, s = c :: cs → isWhitespace c = false) :
    ∃ space, val = trim val ++ space ∧ ∀ c ∈ space, isWhitespace c = true := by
  obtain ⟨front, space, hval, hfront, hspace⟩ := exists_trim val
  cases front with
  | nil => exact ⟨space, hval, hspace⟩
  | cons c front =>
      have hcons : s = c :: (front ++ trim val ++ space ++ unit) :=
        hs.trans (congrArg (· ++ unit) hval)
      have hc := hhead c _ hcons
      rw [hfront c List.mem_cons_self] at hc
      cases hc

theorem trim_body {number space : List Char} (hnumber : Denotes number n)
    (hspace : ∀ c ∈ space, isWhitespace c = true) : trim (number ++ space) = number := by
  rw [trim_extend hspace, trim_eq_self hnumber.isWhitespace]

theorem parse_scale_iff {val : List Char} :
    (parseUnsigned w.usizeMax val).bind (scale w steps) = some v ↔
      ∃ n, Denotes val n ∧ v = n * 1024 ^ steps ∧ v ≤ w.usizeMax := by
  simp only [Option.bind_eq_some_iff, parseUnsigned_eq_some_iff]
  constructor
  · rintro ⟨n, ⟨hdenotes, hn⟩, hscale⟩
    exact ⟨n, hdenotes, (scale_eq_some_iff hn).mp hscale⟩
  · rintro ⟨n, hdenotes, rfl, hmax⟩
    have hn : n ≤ w.usizeMax := (Nat.le_mul_of_pos_right n (Nat.pow_pos (by decide))).trans hmax
    exact ⟨n, ⟨hdenotes, hn⟩, (scale_eq_some_iff hn).mpr ⟨rfl, hmax⟩⟩

theorem parseCacheValue_eq_ok {raw : List Char} : parseCacheValue w raw = .ok v ↔
    (∃ val steps, takeUnit unitFamilies ((trim raw).map Char.toUpper) = some (val, steps) ∧
      (parseUnsigned w.usizeMax (trim val)).bind (scale w steps) = some v) ∨
    takeUnit unitFamilies ((trim raw).map Char.toUpper) = none ∧
      parseUnsigned w.usizeMax ((trim raw).map Char.toUpper) = some v := by
  rw [parseCacheValue]
  by_cases hnil : (trim raw).map Char.toUpper = []
  · rw [if_pos hnil, hnil]
    exact iff_of_false (by simp) fun h => h.elim (fun ⟨_, _, htake, _⟩ => by cases htake)
      fun ⟨_, hparse⟩ => by cases hparse
  · rw [if_neg hnil]
    cases takeUnit unitFamilies ((trim raw).map Char.toUpper) with
    | some x =>
        obtain ⟨val, steps⟩ := x
        cases hparse : (parseUnsigned w.usizeMax (trim val)).bind (scale w steps) <;> simp [hparse]
    | none => cases parseUnsigned w.usizeMax ((trim raw).map Char.toUpper) <;> simp

/-- `parseCacheValue` accepts the texts of its grammar whose value a `usize` can hold, and no others. -/
theorem parseCacheValue_ok_iff (w : Width) (raw : List Char) (v : ℕ) :
    parseCacheValue w raw = .ok v ↔
      IsCacheValue ((trim raw).map Char.toUpper) v ∧ v ≤ w.usizeMax := by
  have hhead : ∀ c cs, (trim raw).map Char.toUpper = c :: cs → isWhitespace c = false := by
    intro c cs h
    obtain ⟨c', cs', hraw, rfl, -⟩ := List.map_eq_cons_iff.mp h
    rw [isWhitespace_toUpper, trim_head hraw]
  rw [parseCacheValue_eq_ok]
  generalize (trim raw).map Char.toUpper = text at hhead
  constructor
  · rintro (⟨val, steps, htake, hparse⟩ | ⟨-, hparse⟩)
    · obtain ⟨family, hfamily, unit, hunit, rfl, rfl⟩ := takeUnit_eq_some htake
      obtain ⟨hmem, hne⟩ := mem_cacheUnits family hfamily unit hunit
      obtain ⟨space, hval, hspace⟩ := exists_space rfl hhead
      obtain ⟨n, hdenotes, hv, hmax⟩ := parse_scale_iff.mp hparse
      exact ⟨⟨trim val, space, unit, family.2, n, by rw [← hval], hdenotes, hspace,
        fun hnil => absurd hnil hne, hmem, hv⟩, hmax⟩
    · obtain ⟨hdenotes, hmax⟩ := parseUnsigned_eq_some_iff.mp hparse
      exact ⟨⟨text, [], [], 0, v, by simp, hdenotes, List.forall_mem_nil _, fun _ => rfl, .head _,
        by rw [pow_zero, Nat.mul_one]⟩, hmax⟩
  · rintro ⟨⟨number, space, unit, steps, n, rfl, hdenotes, hspace, hnone, hmem, hv⟩, hmax⟩
    by_cases hne : unit = []
    · obtain rfl := hne
      obtain rfl := hnone rfl
      obtain rfl : steps = 0 := by
        simpa [cacheUnits] using hmem
      rw [List.append_nil, List.append_nil]
      exact Or.inr ⟨takeUnit_number hdenotes, parseUnsigned_eq_some_iff.mpr
        ⟨by rwa [hv, pow_zero, Nat.mul_one], hmax⟩⟩
    · refine Or.inl ⟨number ++ space, steps, takeUnit_body hdenotes hspace hmem hne, ?_⟩
      rw [trim_body hdenotes hspace]
      exact parse_scale_iff.mpr ⟨n, hdenotes, hv, hmax⟩

end KernelKit.CpuFeatures
