import KernelKit.NumaLoad

/-!
# The library cell is written once

Two invariants of the runs of `load`: what the threads at each point know of the lock and the cell, and
what the steps so far have left behind. Every run keeps both, so the cell is written at most once, by the
holder of the lock, and every call that returns gives its contents.
-/

namespace KernelKit.Numa
open Interaction

variable {ι : Type}

/-! ### The invariants -/

def Point.Locked : Point → Prop
  | .start | .locking | .done _ => False
  | _ => True

/-- What a thread at the point knows of the cell. -/
def Point.Fits : Point → Option (Option SharedLibrary) → Prop
  | .trying, cell | .setting _, cell => cell = none
  | .reading, cell => cell.isSome
  | .unlocking (.ok value), cell | .done (.ok value), cell => cell = some value
  | _, _ => True

structure Consistent (s : LoadState ι) (pc : ι → Point) : Prop where
  holder : ∀ i, (pc i).Locked ↔ s.holder = some i
  fits : ∀ i, (pc i).Fits s.cell

def Point.failure : Point → Option Error
  | .unlocking (.error error) | .done (.error error) => some error
  | _ => none

/-- What a run has done so far, given the points its threads have reached. -/
structure Recorded (events : List (LoadEvent ι)) (s : LoadState ι) (pc : ι → Point) : Prop where
  writes : events.countP wrote = s.cell.toList.length
  once : events.countP settled ≤ 1
  pending : events.countP settled = 0 ∨ s.cell.isSome ∨ ∃ i value, pc i = .setting value
  origin : ∀ value, s.cell = some value ∨ (∃ i, pc i = .setting value) →
    ∃ ev ∈ events, ∃ i, Attempt i (.ok value) ev
  failures : ∀ i error, (pc i).failure = some error → ∃ ev ∈ events, Attempt i (.error error) ev
  guarded : ∀ ev ∈ events, Guarded ev
  reads : events.Pairwise fun ev later => wrote ev → ¬ readsEmpty later

variable {s s' : LoadState ι} {pc : ι → Point} {i j : ι} {pt : Point}
variable {events : List (LoadEvent ι)} {ev : LoadEvent ι}

theorem Consistent.fits_at (h : Consistent s pc) (hpc : pc i = pt) : pt.Fits s.cell :=
  hpc ▸ h.fits i

theorem Consistent.held_at (h : Consistent s pc) (hpc : pc i = pt) (hlocked : pt.Locked) :
    s.holder = some i :=
  (h.holder i).mp (hpc ▸ hlocked)

theorem Consistent.locked_unique (h : Consistent s pc) (hi : (pc i).Locked) (hj : (pc j).Locked) :
    j = i :=
  Option.some.inj (((h.holder j).mp hj).symm.trans ((h.holder i).mp hi))

theorem Recorded.guarded_step (h : Recorded events s pc) (hguarded : Guarded ev) :
    ∀ ev' ∈ events ++ [ev], Guarded ev' :=
  List.forall_mem_append.mpr ⟨h.guarded, List.forall_mem_singleton.mpr hguarded⟩

theorem Recorded.reads_step (h : Recorded events s pc) (hread : readsEmpty ev → s.cell = none) :
    (events ++ [ev]).Pairwise fun ev later => wrote ev → ¬ readsEmpty later := by
  refine List.pairwise_append.mpr ⟨h.reads, List.pairwise_singleton _ _, fun a ha b hb hwrote hb' => ?_⟩
  rw [List.mem_singleton.mp hb] at hb'
  have hpos := List.countP_pos_iff.mpr ⟨a, ha, hwrote⟩
  rw [h.writes, hread hb'] at hpos
  exact absurd hpos (Nat.lt_irrefl 0)

/-! ### Steps -/

variable [DecidableEq ι]

/-- A step of `i` keeps what the others know if it changes neither whose guard lives nor what they
know of the cell. -/
theorem Consistent.update (h : Consistent s pc) (hlocked : pt.Locked ↔ s'.holder = some i)
    (hfits : pt.Fits s'.cell)
    (hholder : ∀ j, j ≠ i → (s.holder = some j ↔ s'.holder = some j))
    (hcell : ∀ j, j ≠ i → (pc j).Fits s'.cell) : Consistent s' (Function.update pc i pt) := by
  constructor
  · rw [Function.forall_update_iff pc fun j pt => pt.Locked ↔ s'.holder = some j]
    exact ⟨hlocked, fun j hj => (h.holder j).trans (hholder j hj)⟩
  · rw [Function.forall_update_iff pc fun _ pt => pt.Fits s'.cell]
    exact ⟨hfits, hcell⟩

theorem Consistent.move (h : Consistent s pc) (hlocked : pt.Locked ↔ (pc i).Locked)
    (hfits : pt.Fits s.cell) : Consistent s (Function.update pc i pt) :=
  h.update (hlocked.trans (h.holder i)) hfits (fun _ _ => Iff.rfl) fun j _ => h.fits j

theorem Consistent.lock (h : Consistent s pc) (hfree : s.holder = none) (hlocked : pt.Locked)
    (hfits : pt.Fits s.cell) :
    Consistent { s with holder := some i } (Function.update pc i pt) := by
  refine h.update (iff_of_true hlocked rfl) hfits (fun j hj => ?_) fun j _ => h.fits j
  rw [hfree]
  exact iff_of_false nofun fun heq => hj (Option.some.inj heq).symm

theorem Consistent.unlock (h : Consistent s pc) (hheld : (pc i).Locked) (hlocked : ¬ pt.Locked)
    (hfits : pt.Fits s.cell) : Consistent { s with holder := none } (Function.update pc i pt) := by
  refine h.update (iff_of_false hlocked nofun) hfits (fun j hj => ?_) fun j _ => h.fits j
  rw [(h.holder i).mp hheld]
  exact iff_of_false (fun heq => hj (Option.some.inj heq).symm) nofun

/-- The others stand at points that know nothing of an empty cell: the guard is with `i`. -/
theorem Consistent.write (h : Consistent s pc) (hheld : (pc i).Locked) (hempty : s.cell = none)
    (value : Option SharedLibrary) :
    Consistent { s with cell := some value } (Function.update pc i .reading) := by
  refine h.update (iff_of_true trivial ((h.holder i).mp hheld)) rfl (fun _ _ => Iff.rfl) fun j hj => ?_
  have hout : ¬ (pc j).Locked := fun hj' => hj (h.locked_unique hheld hj')
  have hfits := h.fits j
  rw [hempty] at hfits
  revert hout hfits
  cases pc j with
  | start | locking | checking => exact fun _ _ => trivial
  | trying | setting | reading | unlocking => exact fun hout _ => absurd trivial hout
  | done result =>
    cases result with
    | ok => exact fun _ hfits => nomatch hfits
    | error => exact fun _ _ => trivial

theorem Consistent.step (h : Consistent s pc) {op : LoadOp} {x : op.Ans}
    (hadvance : Advance (pc i) op x pt) (hserve : loadServe i op s x s') :
    Consistent s' (Function.update pc i pt) := by
  have hfits := h.fits i
  have hmove : (pt.Locked ↔ (pc i).Locked) → pt.Fits s.cell →
      Consistent s (Function.update pc i pt) := h.move
  have hheld := h.holder i
  generalize hpt : pc i = pt₀ at hadvance
  rw [hpt] at hfits hmove hheld
  cases hadvance with
  | cached value | found value | reread value =>
    obtain ⟨hcell, rfl⟩ := hserve
    exact hmove .rfl hcell.symm
  | empty =>
    obtain ⟨-, rfl⟩ := hserve
    exact hmove .rfl trivial
  | missing =>
    obtain ⟨hcell, rfl⟩ := hserve
    exact hmove .rfl hcell.symm
  | failed error =>
    obtain rfl := hserve
    exact hmove .rfl trivial
  | loaded value =>
    obtain rfl := hserve
    exact hmove .rfl hfits
  | lost =>
    obtain ⟨hcell, rfl⟩ := hserve
    rw [← hcell] at hfits
    cases hfits
  | locked =>
    obtain ⟨hfree, rfl⟩ := hserve
    exact h.lock hfree trivial trivial
  | set value x =>
    have hempty : s.cell = none := hfits
    rcases hserve with ⟨-, -, rfl⟩ | ⟨hfull, -, rfl⟩
    · exact h.write (by rw [hpt]; trivial) hempty value
    · rw [hempty] at hfull
      cases hfull
  | unlocked result =>
    obtain rfl := hserve
    refine h.unlock (by rw [hpt]; trivial) not_false ?_
    cases result with
    | error => trivial
    | ok => exact hfits

theorem Recorded.failures_step (h : Recorded events s pc)
    (hfailure : ∀ error, pt.failure = some error →
      (pc i).failure = some error ∨ Attempt i (.error error) ev) (j : ι) (error : Error)
    (hj : (Function.update pc i pt j).failure = some error) :
    ∃ ev' ∈ events ++ [ev], Attempt j (.error error) ev' := by
  have hold (hold : (pc j).failure = some error) : ∃ ev' ∈ events ++ [ev], Attempt j (.error error) ev' := by
    obtain ⟨ev', hmem, hev'⟩ := h.failures j error hold
    exact ⟨ev', List.mem_append_left _ hmem, hev'⟩
  by_cases heq : j = i
  · subst heq
    rw [Function.update_self] at hj
    rcases hfailure error hj with hpc | hev
    · exact hold hpc
    · exact ⟨ev, List.mem_append_right _ (List.mem_singleton.mpr rfl), hev⟩
  · rw [Function.update_of_ne heq] at hj
    exact hold hj

theorem Recorded.origin_step (h : Recorded events s pc)
    (hcell : ∀ value, s'.cell = some value → s.cell = some value ∨ ∃ j, pc j = .setting value)
    (hpt : ∀ value, pt = .setting value → Attempt i (.ok value) ev) (value : Option SharedLibrary)
    (hvalue : s'.cell = some value ∨ ∃ j, Function.update pc i pt j = .setting value) :
    ∃ ev' ∈ events ++ [ev], ∃ j, Attempt j (.ok value) ev' := by
  have hold (hold : s.cell = some value ∨ ∃ j, pc j = .setting value) :
      ∃ ev' ∈ events ++ [ev], ∃ j, Attempt j (.ok value) ev' := by
    obtain ⟨ev', hmem, hev'⟩ := h.origin value hold
    exact ⟨ev', List.mem_append_left _ hmem, hev'⟩
  rcases hvalue with hcell' | ⟨j, hj⟩
  · exact hold (hcell value hcell')
  · by_cases heq : j = i
    · subst heq
      rw [Function.update_self] at hj
      exact ⟨ev, List.mem_append_right _ (List.mem_singleton.mpr rfl), j, hpt value hj⟩
    · rw [Function.update_of_ne heq] at hj
      exact hold (Or.inr ⟨j, hj⟩)

theorem Recorded.quiet (h : Recorded events s pc) (hwrote : wrote ev = false)
    (hsettled : settled ev = false) (hcell : s'.cell = s.cell)
    (hsetting : ∀ value, pc i ≠ .setting value) (hsetting' : ∀ value, pt ≠ .setting value)
    (hfailure : ∀ error, pt.failure = some error →
      (pc i).failure = some error ∨ Attempt i (.error error) ev)
    (hguarded : Guarded ev) (hread : readsEmpty ev → s.cell = none) :
    Recorded (events ++ [ev]) s' (Function.update pc i pt) where
  writes := by simp only [List.countP_append, List.countP_singleton, hwrote, hcell, h.writes]; rfl
  once := by simpa [List.countP_append, List.countP_singleton, hsettled] using h.once
  pending := by
    simp only [List.countP_append, List.countP_singleton, hsettled, hcell]
    rcases h.pending with hzero | hsome | ⟨j, value, hj⟩
    · exact Or.inl hzero
    · exact Or.inr (Or.inl hsome)
    · refine Or.inr (Or.inr ⟨j, value, ?_⟩)
      have hne : j ≠ i := by
        rintro rfl
        exact hsetting value hj
      rw [Function.update_of_ne hne, hj]
  origin := h.origin_step (fun _ hvalue => Or.inl (hcell.symm.trans hvalue))
    fun value hpt => absurd hpt (hsetting' value)
  failures := h.failures_step hfailure
  guarded := h.guarded_step hguarded
  reads := h.reads_step hread

/-- The attempt that settles: none has before, since `i` holds the lock and the cell is empty. -/
theorem Recorded.settle (h : Recorded events s pc) (hcons : Consistent s pc) (hpc : pc i = .trying)
    (value : Option SharedLibrary) :
    Recorded (events ++ [⟨i, s, .tryLoad, .ok value⟩]) s (Function.update pc i (.setting value)) := by
  have hempty : s.cell = none := hcons.fits_at hpc
  have hheld : s.holder = some i := hcons.held_at hpc trivial
  have hzero : events.countP settled = 0 := by
    rcases h.pending with hzero | hsome | ⟨j, value, hj⟩
    · exact hzero
    · rw [hempty] at hsome
      cases hsome
    · obtain rfl := Option.some.inj (hheld.symm.trans (hcons.held_at hj trivial))
      cases hpc.symm.trans hj
  exact {
    writes := by simpa [List.countP_append, List.countP_singleton, wrote] using h.writes
    once := by simp [List.countP_append, hzero, List.countP_singleton, settled]
    pending := Or.inr (Or.inr ⟨i, value, Function.update_self ..⟩)
    origin := h.origin_step (fun _ hvalue => Or.inl hvalue) fun _ hset => ⟨rfl, by cases hset; rfl⟩
    failures := h.failures_step (fun _ hfail => nomatch hfail)
    guarded := h.guarded_step ⟨hheld, hempty⟩
    reads := h.reads_step (fun hread => nomatch hread) }

theorem Recorded.write (h : Recorded events s pc) (hcons : Consistent s pc)
    {value : Option SharedLibrary} (hpc : pc i = .setting value) :
    Recorded (events ++ [⟨i, s, .set value, .ok ()⟩]) { s with cell := some value }
      (Function.update pc i .reading) := by
  have hempty : s.cell = none := hcons.fits_at hpc
  have hheld : s.holder = some i := hcons.held_at hpc trivial
  exact {
    writes := by simp [List.countP_append, h.writes, hempty, List.countP_singleton, wrote]
    once := by simpa [List.countP_append, List.countP_singleton, settled] using h.once
    pending := Or.inr (Or.inl rfl)
    origin := h.origin_step (fun _ hvalue => Or.inr ⟨i, by rw [hpc, Option.some.inj hvalue]⟩) nofun
    failures := h.failures_step (fun _ hfail => nomatch hfail)
    guarded := h.guarded_step ⟨hheld, hempty, rfl⟩
    reads := h.reads_step (fun hread => nomatch hread) }

theorem Recorded.step (h : Recorded events s pc) (hcons : Consistent s pc) {op : LoadOp} {x : op.Ans}
    (hadvance : Advance (pc i) op x pt) (hserve : loadServe i op s x s') :
    Recorded (events ++ [⟨i, s, op, x⟩]) s' (Function.update pc i pt) := by
  have hfits := hcons.fits i
  have hheld := hcons.holder i
  generalize hpt : pc i = pt₀ at hadvance
  rw [hpt] at hfits hheld
  cases hadvance with
  | cached | found | reread | empty | missing =>
    obtain ⟨hcell, rfl⟩ := hserve
    exact h.quiet rfl rfl rfl (by simp [hpt]) nofun nofun trivial (fun hread => by simp_all [readsEmpty])
  | locked =>
    obtain ⟨-, rfl⟩ := hserve
    exact h.quiet rfl rfl rfl (by simp [hpt]) nofun nofun trivial nofun
  | failed error =>
    obtain rfl := hserve
    exact h.quiet rfl rfl rfl (by simp [hpt]) nofun (fun e he => Or.inr ⟨rfl, by cases he; rfl⟩)
      ⟨hheld.mp trivial, hfits⟩ nofun
  | loaded value =>
    obtain rfl := hserve
    exact h.settle hcons hpt value
  | lost =>
    obtain ⟨hcell, rfl⟩ := hserve
    rw [← hcell] at hfits
    cases hfits
  | set value x =>
    rcases hserve with ⟨-, rfl, rfl⟩ | ⟨hfull, -, -⟩
    · exact h.write hcons hpt
    · rw [show s.cell = none from hfits] at hfull
      cases hfull
  | unlocked result =>
    obtain rfl := hserve
    exact h.quiet rfl rfl rfl (by simp [hpt]) nofun
      (fun e he => Or.inl (by rw [hpt]; cases result <;> exact he))
      trivial nofun

/-! ### Runs -/

/-- Every run keeps both invariants, for the points its threads have reached. -/
theorem runs_points {pool : LoadPool ι} (hrun : Pool.Runs loadServe (loadStart ι) events pool) :
    ∃ pc, Pool.At Point.code pool pc ∧ Consistent pool.shared pc ∧
      Recorded events pool.shared pc := by
  refine hrun.invariant (I := fun events pool => ∃ pc, Pool.At Point.code pool pc ∧
    Consistent pool.shared pc ∧ Recorded events pool.shared pc) ?_ ?_
  · refine ⟨fun _ => .start, fun _ => rfl, ⟨fun _ => iff_of_false not_false nofun, fun _ => trivial⟩, ?_⟩
    refine ⟨rfl, Nat.zero_le 1, Or.inl rfl, ?_, nofun, nofun, .nil⟩
    rintro value (hvalue | ⟨_, hpc⟩)
    · cases hvalue
    · cases hpc
  · rintro events p ⟨i, s, op, x⟩ q ⟨pc, hat, hcons, hrec⟩ hstep
    obtain ⟨pt, hadvance, hat', rfl, hserve⟩ := hat.step (fun _ _ _ _ => advance_of_code) hstep
    exact ⟨_, hat', hcons.step hadvance hserve, hrec.step hcons hadvance hserve⟩

theorem cell_of_attempt {p q : LoadPool ι} {error : Error} (hstep : Pool.Step loadServe p ev q)
    (hfailed : Attempt i (.error error) ev) (hguarded : Guarded ev) : q.shared.cell = none := by
  cases hstep with
  | @call prog j op next s s' x hprog hserve =>
    cases op with
    | tryLoad =>
      obtain rfl := hserve
      exact hguarded.2
    | get | lock | set | unlock => cases hfailed

/-- A call that starts while the cell is empty and the lock is free gets to an attempt. -/
theorem runs_retry {pool : LoadPool ι} (hload : pool.prog i = load) (hempty : pool.shared.cell = none)
    (hfree : pool.shared.holder = none) (x : Except Error (Option SharedLibrary)) :
    ∃ earlier q, Pool.Runs loadServe pool
        (earlier ++ [⟨i, { pool.shared with holder := some i }, .tryLoad, x⟩]) q ∧
      ∀ ev ∈ earlier, ev.thread = i := by
  obtain ⟨⟨_, _⟩, prog⟩ := pool
  obtain rfl : _ = none := hempty
  obtain rfl : _ = none := hfree
  have hget := (Pool.Runs.refl : Pool.Runs loadServe ⟨⟨none, none⟩, prog⟩ [] _).call
    (serve_get i _) (hload.trans load_eq)
  have hlock := hget.call (serve_lock i _ rfl) (Function.update_self ..)
  have hcheck := hlock.call (serve_get i _) (Function.update_self ..)
  have htry := hcheck.call (serve_tryLoad i _ x) (Function.update_self ..)
  exact ⟨_, _, htry, by simp⟩

/-- While every attempt finds what `tryLoad` gives on one environment, so does every call. -/
theorem load_eq_tryLoad {env : NumaEnv} {pool : LoadPool ι}
    {result : Except Error (Option SharedLibrary)}
    (hrun : Pool.Runs loadServe (loadStart ι) events pool)
    (henv : ∀ ev ∈ events, ∀ j found, Attempt j found ev → found = tryLoad env)
    (hresult : pool.prog i = Point.ended result) : result = tryLoad env := by
  obtain ⟨pc, hat, hcons, hrec⟩ := runs_points hrun
  have hdone : pc i = .done result := Point.eq_done_of_code ((hat i).symm.trans hresult)
  cases result with
  | ok value =>
    obtain ⟨ev, hmem, j, hattempt⟩ := hrec.origin value (Or.inl (hcons.fits_at hdone))
    exact henv ev hmem j _ hattempt
  | error error =>
    obtain ⟨ev, hmem, hattempt⟩ := hrec.failures i error (by rw [hdone]; rfl)
    exact henv ev hmem i _ hattempt

structure LoadedOnce (events : List (LoadEvent ι)) (pool : LoadPool ι) : Prop where
  writes : events.countP wrote ≤ 1
  settled : events.countP settled ≤ 1
  guarded : ∀ ev ∈ events, Guarded ev
  returned : ∀ i value, pool.prog i = .ret value → pool.shared.cell = some value
  failed : ∀ i error, pool.prog i = .fail error → ∃ ev ∈ events, Attempt i (.error error) ev
  kept : ∀ ev q i error, Pool.Step loadServe pool ev q → Attempt i (.error error) ev →
    q.shared.cell = none
  retried : ∀ i x, pool.prog i = load → pool.shared.cell = none → pool.shared.holder = none →
    ∃ earlier q, Pool.Runs loadServe pool
        (earlier ++ [⟨i, { pool.shared with holder := some i }, .tryLoad, x⟩]) q ∧
      ∀ ev ∈ earlier, ev.thread = i
  found : events.Pairwise fun ev later => wrote ev → ¬ readsEmpty later

theorem load_once {pool : LoadPool ι} (hrun : Pool.Runs loadServe (loadStart ι) events pool) :
    LoadedOnce events pool := by
  obtain ⟨pc, hat, hcons, hrec⟩ := runs_points hrun
  exact {
    writes := by
      rw [hrec.writes]
      exact Option.length_toList_le
    settled := hrec.once
    guarded := hrec.guarded
    returned := by
      intro i value hret
      have hdone : pc i = .done (.ok value) := Point.eq_done_of_code ((hat i).symm.trans hret)
      exact hcons.fits_at hdone
    failed := by
      intro i error hfail
      have hdone : pc i = .done (.error error) := Point.eq_done_of_code ((hat i).symm.trans hfail)
      exact hrec.failures i error (by rw [hdone]; rfl)
    kept := by
      intro ev q i error hstep hfailed
      obtain ⟨_, _, _, hrec'⟩ := runs_points (hrun.step hstep)
      exact cell_of_attempt hstep hfailed
        (hrec'.guarded ev (List.mem_append_right _ (List.mem_singleton.mpr rfl)))
    retried := fun i x hload hempty hfree => runs_retry hload hempty hfree x
    found := hrec.reads }

/-- Two calls find the cell empty; the attempt of the first fails, and the second one, which waited for
the lock, finds that libnuma is not there. -/
theorem load_once_retry : ∃ events q, Pool.Runs loadServe (loadStart ℕ) events q ∧
    q.prog 0 = .fail (.symbolLoad "libnuma.so.1" "numa_max_node") ∧ q.prog 1 = .ret none ∧
    q.shared.cell = some none ∧ LoadedOnce events q := by
  have hfirst := (((Pool.Runs.refl : Pool.Runs loadServe (loadStart ℕ) [] _).call
    (serve_get 0 _) rfl).call (serve_get 1 _) rfl).call (serve_lock 0 _ rfl) rfl
  have hfailed := ((hfirst.call (serve_get 0 _) rfl).call
    (serve_tryLoad 0 _ (.error (.symbolLoad "libnuma.so.1" "numa_max_node"))) rfl).call
    (serve_unlock 0 _) rfl
  have hsecond := (((hfailed.call (serve_lock 1 _ rfl) rfl).call (serve_get 1 _) rfl).call
    (serve_tryLoad 1 _ (.ok none)) rfl).call (serve_set 1 _ none rfl) rfl
  have hdone := (hsecond.call (serve_get 1 _) rfl).call (serve_unlock 1 _) rfl
  exact ⟨_, _, hdone, rfl, rfl, rfl, load_once hdone⟩

end KernelKit.Numa
