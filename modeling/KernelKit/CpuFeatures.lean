import KernelKit.CacheSizes
import KernelKit.OnceCell

/-!
# Features detected once

`detect` hands out what `detectImpl` finds the first time it is called. The detection is a program here: it
opens one file after the other while they may be changed, and asks the processor for its features. On
files that stay it is the function `detectCacheSizes`.
-/

namespace KernelKit.CpuFeatures
open RustString Interaction OnceCell

structure Target where
  arch : Arch
  linux : Bool
  deriving DecidableEq, Repr

structure Features where
  avx512 : Bool
  avx512bw : Bool
  avx512vl : Bool
  avx512vbmi : Bool
  avx2 : Bool
  neon : Bool
  cacheLineSize : ℕ
  l1Size : ℕ
  l2Size : ℕ
  l3Size : ℕ
  deriving DecidableEq, Repr

inductive FeatureOp
  | readToString (path : String)
  | isFeatureDetected (feature : String)

abbrev FeatureOp.Ans : FeatureOp → Type
  | .readToString _ => Except IoError (List Char)
  | .isFeatureDetected _ => Bool

abbrev DetectProg (α : Type) := Prog FeatureOp FeatureOp.Ans Empty α

/-! ### The detection as a program -/

namespace Detect

def readCacheValue (w : Width) (path : String) : DetectProg (Option ℕ) := do
  match ← Prog.call (FeatureOp.readToString path) with
  | .error _ => pure none
  | .ok raw => pure (parseCacheValue w (trim raw)).toOption

def orElse (first second : DetectProg (Option ℕ)) : DetectProg (Option ℕ) := do
  match ← first with
  | some v => pure (some v)
  | none => second

/-- The loop over the indexes that are left, and what follows it. -/
def probeFrom (w : Width) : List ℕ → DetectProg (Option ℕ)
  | [] => orElse (readCacheValue w (cachePath 0 "size")) (readCacheValue w (cachePath 1 "size"))
  | index :: indexes => do
    match ← Prog.call (FeatureOp.readToString (cachePath index "type")) with
    | .error _ => probeFrom w indexes
    | .ok cacheType =>
      let cacheType := (trim cacheType).map Char.toLower
      if cacheType = ['d', 'a', 't', 'a'] ∨ cacheType = ['u', 'n', 'i', 'f', 'i', 'e', 'd'] then
        match ← Prog.call (FeatureOp.readToString (cachePath index "size")) with
        | .error _ => probeFrom w indexes
        | .ok raw =>
          match parseCacheValue w (trim raw) with
          | .ok val => pure (some val)
          | .error _ => probeFrom w indexes
      else probeFrom w indexes

def probeL1CacheSize (w : Width) : DetectProg (Option ℕ) := probeFrom w [0, 1]

def detectCacheSizes (target : Target) (w : Width) : DetectProg (ℕ × ℕ × ℕ × ℕ) :=
  if target.linux then do
    let lineSize ← orElse (readCacheValue w (cachePath 0 "coherency_line_size"))
      (readCacheValue w (cachePath 1 "coherency_line_size"))
    let l1Size ← probeL1CacheSize w
    let l2Size ← readCacheValue w (cachePath 2 "size")
    let l3Size ← readCacheValue w (cachePath 3 "size")
    pure (lineSize.getD 64, l1Size.getD (32 * 1024), l2Size.getD (256 * 1024), l3Size.getD 0)
  else pure (64, 32 * 1024, 256 * 1024, 0)

-- The two bodies of a probe for an x86 feature; the names below are these at their own feature.
def detectX86 (target : Target) (feature : String) : DetectProg Bool :=
  if target.arch = .x86 then Prog.call (FeatureOp.isFeatureDetected feature) else pure false

def detectAvx512 (target : Target) : DetectProg Bool := detectX86 target "avx512f"

def detectAvx512bw (target : Target) : DetectProg Bool := detectX86 target "avx512bw"

def detectAvx512vl (target : Target) : DetectProg Bool := detectX86 target "avx512vl"

def detectAvx512vbmi (target : Target) : DetectProg Bool := detectX86 target "avx512vbmi"

def detectAvx2 (target : Target) : DetectProg Bool := detectX86 target "avx2"

def detectNeon (target : Target) : DetectProg Bool :=
  if target.arch = .aarch64 ∨ target.arch = .arm then Prog.call (FeatureOp.isFeatureDetected "neon")
  else pure false

def andAlso (first : Bool) (second : DetectProg Bool) : DetectProg Bool :=
  bif first then second else pure false

end Detect

open Detect in
def detectImpl (target : Target) (w : Width) : DetectProg Features := do
  let (cacheLineSize, l1Size, l2Size, l3Size) ← Detect.detectCacheSizes target w
  let avx512 ← detectAvx512 target
  let avx512bw ← andAlso avx512 (detectAvx512bw target)
  let avx512vl ← andAlso avx512 (detectAvx512vl target)
  let avx512vbmi ← andAlso avx512 (detectAvx512vbmi target)
  let avx2 ← detectAvx2 target
  let neon ← detectNeon target
  pure ⟨avx512, avx512bw, avx512vl, avx512vbmi, avx2, neon, cacheLineSize, l1Size, l2Size, l3Size⟩

/-- `detect`, where the cell is the static of the function. -/
def detect (target : Target) (w : Width) : OnceProg FeatureOp.Ans Features :=
  getOrInit (detectImpl target w)

/-! ### The machine -/

structure Machine where
  files : String → Except IoError (List Char)
  has : String → Bool

def Machine.answer (m : Machine) : (op : FeatureOp) → op.Ans
  | .readToString path => m.files path
  | .isFeatureDetected feature => m.has feature

/-- Files may change between any two calls as `changes` allows; the processor keeps its features. -/
def machineEnv
    (changes : (String → Except IoError (List Char)) → (String → Except IoError (List Char)) → Prop) :
    Env Machine FeatureOp FeatureOp.Ans where
  serve op m x m' := x = m.answer op ∧ m' = m
  interfere m m' := changes m.files m'.files ∧ m'.has = m.has

def Machine.hasX86 (m : Machine) (target : Target) (feature : String) : Bool :=
  decide (target.arch = .x86) && m.has feature

def Machine.features (m : Machine) (target : Target) (sizes : ℕ × ℕ × ℕ × ℕ) : Features where
  avx512 := m.hasX86 target "avx512f"
  avx512bw := m.hasX86 target "avx512f" && m.hasX86 target "avx512bw"
  avx512vl := m.hasX86 target "avx512f" && m.hasX86 target "avx512vl"
  avx512vbmi := m.hasX86 target "avx512f" && m.hasX86 target "avx512vbmi"
  avx2 := m.hasX86 target "avx2"
  neon := decide (target.arch = .aarch64 ∨ target.arch = .arm) && m.has "neon"
  cacheLineSize := sizes.1
  l1Size := sizes.2.1
  l2Size := sizes.2.2.1
  l3Size := sizes.2.2.2

def Machine.sizes (m : Machine) (target : Target) (w : Width) : ℕ × ℕ × ℕ × ℕ :=
  if target.linux then detectCacheSizes w m.files else (64, 32 * 1024, 256 * 1024, 0)

/-! ### Files that stay -/

section Eval

variable (w : Width) (m : Machine) (target : Target)

theorem eval_readCacheValue (path : String) :
    (Detect.readCacheValue w path).eval m.answer = .ok (readCacheValue w m.files path) := by
  rw [Detect.readCacheValue, readCacheValue]
  refine (Prog.eval_call_bind ..).trans ?_
  rw [Machine.answer]
  cases m.files path <;> rfl

theorem eval_orElse {first second : DetectProg (Option ℕ)} {v v' : Option ℕ}
    (hfirst : first.eval m.answer = .ok v) (hsecond : second.eval m.answer = .ok v') :
    (Detect.orElse first second).eval m.answer = .ok (v.or v') := by
  rw [Detect.orElse]
  refine (Prog.eval_bind ..).trans ?_
  rw [hfirst]
  cases v with
  | none => exact hsecond
  | some v => rfl

theorem eval_probeFrom_cons (index : ℕ) (indexes : List ℕ) :
    (Detect.probeFrom w (index :: indexes)).eval m.answer =
      match probeIndex w m.files index with
      | some v => .ok (some v)
      | none => (Detect.probeFrom w indexes).eval m.answer := by
  rw [Detect.probeFrom, probeIndex]
  refine (Prog.eval_call_bind ..).trans ?_
  rw [Machine.answer]
  cases m.files (cachePath index "type") with
  | error _ => rfl
  | ok cacheType =>
      dsimp only
      split_ifs with hdata
      · refine (Prog.eval_call_bind ..).trans ?_
        rw [Machine.answer]
        cases m.files (cachePath index "size") with
        | error _ => rfl
        | ok raw =>
            dsimp only
            cases parseCacheValue w (trim raw) <;> rfl
      · rfl

theorem eval_probeL1CacheSize :
    (Detect.probeL1CacheSize w).eval m.answer = .ok (probeL1CacheSize w m.files) := by
  rw [Detect.probeL1CacheSize, probeL1CacheSize, Option.or_assoc, findSome?_pair, eval_probeFrom_cons]
  cases probeIndex w m.files 0 with
  | some v => rfl
  | none =>
      rw [eval_probeFrom_cons, Option.none_or]
      cases probeIndex w m.files 1 with
      | some v => rfl
      | none =>
          have hrest := eval_orElse m (eval_readCacheValue w m (cachePath 0 "size"))
            (eval_readCacheValue w m (cachePath 1 "size"))
          exact hrest

theorem eval_detectCacheSizes :
    (Detect.detectCacheSizes target w).eval m.answer = .ok (m.sizes target w) := by
  rw [Detect.detectCacheSizes, Machine.sizes]
  split_ifs
  · refine (Prog.eval_bind ..).trans ?_
    rw [eval_orElse m (eval_readCacheValue w m _) (eval_readCacheValue w m _)]
    refine (Prog.eval_bind ..).trans ?_
    rw [eval_probeL1CacheSize]
    refine (Prog.eval_bind ..).trans ?_
    rw [eval_readCacheValue]
    refine (Prog.eval_bind ..).trans ?_
    rw [eval_readCacheValue]
    rfl
  · rfl

theorem eval_detectX86 (feature : String) :
    (Detect.detectX86 target feature).eval m.answer = .ok (m.hasX86 target feature) := by
  rw [Detect.detectX86, Machine.hasX86]
  split_ifs with harch
  · rw [decide_eq_true harch]
    rfl
  · rw [decide_eq_false harch]
    rfl

theorem eval_andAlso {first : Bool} {second : DetectProg Bool} {b : Bool}
    (hsecond : second.eval m.answer = .ok b) :
    (Detect.andAlso first second).eval m.answer = .ok (first && b) := by
  cases first with
  | false => rfl
  | true => exact hsecond

theorem eval_detectNeon : (Detect.detectNeon target).eval m.answer =
    .ok (decide (target.arch = .aarch64 ∨ target.arch = .arm) && m.has "neon") := by
  rw [Detect.detectNeon]
  split_ifs with harch
  · rw [decide_eq_true harch]
    rfl
  · rw [decide_eq_false harch]
    rfl

def withSizes (sizes : ℕ × ℕ × ℕ × ℕ) : DetectProg Features := do
  let avx512 ← Detect.detectAvx512 target
  let avx512bw ← Detect.andAlso avx512 (Detect.detectAvx512bw target)
  let avx512vl ← Detect.andAlso avx512 (Detect.detectAvx512vl target)
  let avx512vbmi ← Detect.andAlso avx512 (Detect.detectAvx512vbmi target)
  let avx2 ← Detect.detectAvx2 target
  let neon ← Detect.detectNeon target
  pure ⟨avx512, avx512bw, avx512vl, avx512vbmi, avx2, neon, sizes.1, sizes.2.1, sizes.2.2.1, sizes.2.2.2⟩

theorem detectImpl_eq :
    detectImpl target w = (Detect.detectCacheSizes target w).bind (withSizes target) := rfl

theorem eval_withSizes (sizes : ℕ × ℕ × ℕ × ℕ) :
    (withSizes target sizes).eval m.answer = .ok (m.features target sizes) := by
  rw [withSizes]
  refine (Prog.eval_bind ..).trans ?_
  rw [Detect.detectAvx512, eval_detectX86]
  refine (Prog.eval_bind ..).trans ?_
  rw [Detect.detectAvx512bw, eval_andAlso m (eval_detectX86 m target _)]
  refine (Prog.eval_bind ..).trans ?_
  rw [Detect.detectAvx512vl, eval_andAlso m (eval_detectX86 m target _)]
  refine (Prog.eval_bind ..).trans ?_
  rw [Detect.detectAvx512vbmi, eval_andAlso m (eval_detectX86 m target _)]
  refine (Prog.eval_bind ..).trans ?_
  rw [Detect.detectAvx2, eval_detectX86]
  refine (Prog.eval_bind ..).trans ?_
  rw [eval_detectNeon]
  rfl

/-- The detection is a function of the files and the processor. -/
theorem eval_detectImpl :
    (detectImpl target w).eval m.answer = .ok (m.features target (m.sizes target w)) := by
  rw [detectImpl_eq, Prog.eval_bind, eval_detectCacheSizes]
  exact eval_withSizes m target _

end Eval

/-! ### Files that change -/

variable {changes : (String → Except IoError (List Char)) → (String → Except IoError (List Char)) → Prop}
  {m m' : Machine} {tr : List (Call Machine FeatureOp FeatureOp.Ans)}

theorem has_of_interfere (h : Relation.ReflTransGen (machineEnv changes).interfere m m') :
    m'.has = m.has := by
  induction h with
  | refl => rfl
  | tail _ hstep ih => exact hstep.2.trans ih

theorem has_of_runs {α : Type} {p : DetectProg α} {r : Except Empty α}
    (h : (machineEnv changes).Runs p m tr r m') : m'.has = m.has := by
  induction h with
  | ret | fail => rfl
  | ask hrely hserve _ ih =>
      obtain ⟨-, rfl⟩ := hserve
      exact ih.trans (has_of_interfere hrely)

/-- A program that asks for nothing but features ends alike on every machine that has them. -/
theorem eval_of_features {α : Type} {p : DetectProg α} {r : Except Empty α} {m₀ : Machine}
    (hp : p.Only fun op => ∃ feature, op = .isFeatureDetected feature)
    (h : (machineEnv changes).Runs p m tr r m') (hhas : m.has = m₀.has) : r = p.eval m₀.answer := by
  induction h with
  | ret | fail => rfl
  | ask hrely hserve _ ih =>
      obtain ⟨⟨feature, rfl⟩, hnext⟩ := hp
      obtain ⟨rfl, rfl⟩ := hserve
      have hhas' := (has_of_interfere hrely).trans hhas
      have heval := ih (hnext _) hhas'
      rw [heval, Prog.eval, Machine.answer, Machine.answer, hhas']

theorem detectX86_only (target : Target) (feature : String) :
    (Detect.detectX86 target feature).Only fun op => ∃ feature, op = .isFeatureDetected feature := by
  rw [Detect.detectX86]
  split_ifs
  · exact ⟨⟨feature, rfl⟩, fun _ => trivial⟩
  · trivial

theorem withSizes_only (target : Target) (sizes : ℕ × ℕ × ℕ × ℕ) :
    (withSizes target sizes).Only fun op => ∃ feature, op = .isFeatureDetected feature := by
  have hand : ∀ (first : Bool) feature, (Detect.andAlso first (Detect.detectX86 target feature)).Only
      fun op => ∃ feature, op = .isFeatureDetected feature := by
    intro first feature
    cases first with
    | false => trivial
    | true => exact detectX86_only target feature
  have hneon : (Detect.detectNeon target).Only fun op => ∃ feature, op = .isFeatureDetected feature := by
    rw [Detect.detectNeon]
    split_ifs
    · exact ⟨⟨"neon", rfl⟩, fun _ => trivial⟩
    · trivial
  refine (detectX86_only target _).bind fun avx512 => ?_
  refine (hand avx512 _).bind fun avx512bw => ?_
  refine (hand avx512 _).bind fun avx512vl => ?_
  refine (hand avx512 _).bind fun avx512vbmi => ?_
  exact (detectX86_only target _).bind fun avx2 => hneon.bind fun neon => trivial

theorem runs_detectImpl {target : Target} {w : Width} {v : Features}
    (h : (machineEnv changes).Runs (detectImpl target w) m tr (.ok v) m') :
    ∃ sizes, v = m.features target sizes := by
  rw [detectImpl_eq] at h
  obtain ⟨sizes, m₁, _, _, hsizes, hrest, -⟩ := Env.runs_bind_ok_iff.mp h
  have heval := eval_of_features (withSizes_only target sizes) hrest (has_of_runs hsizes)
  rw [eval_withSizes] at heval
  exact ⟨sizes, Except.ok.inj heval⟩

theorem avx512_of_features {target : Target} {sizes : ℕ × ℕ × ℕ × ℕ} {v : Features}
    (hv : v = m.features target sizes) (h : v.avx512bw ∨ v.avx512vl ∨ v.avx512vbmi) : v.avx512 := by
  subst hv
  rcases h with h | h | h <;> exact (Bool.and_eq_true_iff.mp h).1

/-! ### Any number of threads -/

variable {ι : Type} [DecidableEq ι]

/-- At most one thread runs the detection, and all of them get what it found. The extensions of AVX-512
are reported only with its foundation, and the features are those of the processor, while the files may
change at any time. And unless all threads have the features, one of them can go on. -/
theorem detect_once (target : Target) (w : Width) {pool : OncePool ι Machine FeatureOp.Ans Features}
    {events : List (OnceEvent ι Machine FeatureOp.Ans Features)}
    (h : Pool.Runs (serve (machineEnv changes)) ⟨⟨.empty, m⟩, fun _ => detect target w⟩ events pool) :
    events.countP entered ≤ 1 ∧
      (∀ i j v v', pool.prog i = .ret v → pool.prog j = .ret v' → v = v') ∧
      (∀ i v, pool.prog i = .ret v → (v.avx512bw ∨ v.avx512vl ∨ v.avx512vbmi → v.avx512) ∧
        ∃ sizes, v = m.features target sizes) ∧
      ((∃ i, ∀ v, pool.prog i ≠ .ret v) →
        ∃ ev next, Pool.Step (serve (machineEnv changes)) pool ev next) := by
  obtain ⟨hcount, hfull, hrun, hprogress⟩ := getOrInit_once h
  refine ⟨hcount, fun i j v v' hi hj => ?_, fun i v hi => ?_, hprogress fun op w => ⟨_, _, rfl, rfl⟩⟩
  · have hsame := (hfull i v hi).symm.trans (hfull j v' hj)
    cases hsame
    rfl
  · obtain ⟨tr, m', hrun⟩ := hrun v (hfull i v hi)
    obtain ⟨sizes, hv⟩ := runs_detectImpl hrun
    exact ⟨avx512_of_features hv, sizes, hv⟩

/-- While the files stay, every thread gets the sizes they give. -/
theorem detect_unchanged (target : Target) (w : Width)
    (hchanges : ∀ files files', changes files files' → files' = files)
    {pool : OncePool ι Machine FeatureOp.Ans Features}
    {events : List (OnceEvent ι Machine FeatureOp.Ans Features)} {i : ι} {v : Features}
    (h : Pool.Runs (serve (machineEnv changes)) ⟨⟨.empty, m⟩, fun _ => detect target w⟩ events pool)
    (hi : pool.prog i = .ret v) : v = m.features target (m.sizes target w) := by
  obtain ⟨-, hfull, hrun, -⟩ := getOrInit_once h
  obtain ⟨tr, m', hrun⟩ := hrun v (hfull i v hi)
  have heval := (hrun.eval m.answer ?_ fun op x m₁ => id).1
  · rw [eval_detectImpl] at heval
    exact Except.ok.inj heval
  · rintro ⟨files, has⟩ ⟨hfiles, hhas⟩
    obtain rfl := hchanges _ _ hfiles
    obtain rfl : has = m.has := hhas
    rfl

def bareMachine : Machine := ⟨fun _ => .error (.os 2), fun _ => true⟩

theorem bareMachine_run (changes) : ∃ events pool v,
    Pool.Runs (serve (machineEnv changes))
      ⟨⟨.empty, bareMachine⟩, fun _ : ℕ => detect ⟨.x86, true⟩ .w64⟩ events pool ∧
      pool.prog 2 = .ret v := by
  obtain ⟨tr, r, hrun⟩ := Env.exists_run (E := machineEnv changes) (s := bareMachine)
    (fun op _ => ⟨_, rfl, rfl⟩) (detectImpl ⟨.x86, true⟩ .w64).only_true
  cases r with
  | error e => exact e.elim
  | ok v =>
      obtain ⟨events, pool, hpool, hprog⟩ := exists_run_alone hrun 2
      exact ⟨events, pool, v, hpool, hprog⟩

/-- Of countably many threads the third one is the first to get the features. -/
theorem detect_once_bare : ∃ events pool v,
    Pool.Runs (serve (machineEnv fun _ _ => True))
      ⟨⟨.empty, bareMachine⟩, fun _ : ℕ => detect ⟨.x86, true⟩ .w64⟩ events pool ∧
      pool.prog 2 = .ret v ∧ events.countP entered ≤ 1 ∧
      ∃ sizes, v = bareMachine.features ⟨.x86, true⟩ sizes := by
  obtain ⟨events, pool, v, hpool, hprog⟩ := bareMachine_run fun _ _ => True
  obtain ⟨hcount, -, hfeatures, -⟩ := detect_once ⟨.x86, true⟩ .w64 hpool
  exact ⟨events, pool, v, hpool, hprog, hcount, (hfeatures 2 v hprog).2⟩

/-- Files that cannot be read give the defaults. -/
theorem detect_unchanged_bare : ∃ events pool,
    Pool.Runs (serve (machineEnv Eq))
      ⟨⟨.empty, bareMachine⟩, fun _ : ℕ => detect ⟨.x86, true⟩ .w64⟩ events pool ∧
      pool.prog 2 = .ret ⟨true, true, true, true, true, false, 64, 32768, 262144, 0⟩ := by
  obtain ⟨events, pool, v, hpool, hprog⟩ := bareMachine_run Eq
  have hv := detect_unchanged ⟨.x86, true⟩ .w64 (fun _ _ => Eq.symm) hpool hprog
  exact ⟨events, pool, hpool, hprog.trans (congrArg _ hv)⟩

end KernelKit.CpuFeatures
