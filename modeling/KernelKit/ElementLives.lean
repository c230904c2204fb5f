import KernelKit.HugePagesDrop
import KernelKit.HugePagesInit
import KernelKit.NumaPlacement

/-!
# Whole lives of the allocated elements

Every way to make elements, from the request to the end of the vector's life, keeps one account:
`munmap` is called for the mappings obtained, the buffers handed out are freed, and the elements made are
dropped, each once. This is shown of all constructors and all ways they may fail, as long as no destructor
unwinds.
-/

namespace KernelKit
open Interaction

variable {σ T : Type} {room : Room} {w : Width} {elem : ElemType} {count : ℕ} {E : Env σ (MemOp T) MemOp.Ans}
  {s s' : σ} {tr tr' : List (Call σ (MemOp T) MemOp.Ans)}

def made (tr : List (Call σ (MemOp T) MemOp.Ans)) : ℕ := (defaults tr).countP Option.isSome

@[simp] theorem made_append : made (tr ++ tr') = made tr + made tr' := by
  rw [made, defaults_append, List.countP_append, made, made]

theorem countP_isSome (values : List T) : (values.map some).countP Option.isSome = values.length := by
  rw [List.countP_map, List.countP_eq_length]
  exact fun _ _ => rfl

theorem made_of_produces {values : List T} (h : Produces tr values) : made tr = values.length := by
  rw [made, h, countP_isSome]

theorem made_of_unwound {values : List T} (h : defaults tr = values.map some ++ [none]) :
    made tr = values.length := by
  rw [made, h, List.countP_append, countP_isSome]
  rfl

theorem made_eq_zero (h : defaults tr = []) : made tr = 0 := by
  rw [made, h]
  rfl

/-- Nothing is left over: the run called `munmap` for what it mapped, freed the buffers it got, and
dropped the elements it made, one after the other. -/
structure Settled (elem : ElemType) (tr : List (Call σ (MemOp T) MemOp.Ans)) : Prop where
  unmapped : ((effects tr).unmapped).Perm (effects tr).mapped
  freed : ((effects tr).freed).Perm (buffers tr)
  dropped : ∃ base, (effects tr).dropped = slots elem base 0 (made tr)

/-- All that is left over is the mapping, the buffer and the elements of what the run returned. -/
structure Leaves (tr : List (Call σ (MemOp T) MemOp.Ans)) (maps : List (ℕ × ℕ)) (bufs : List ℕ)
    (live : ℕ) : Prop where
  mapped : ((effects tr).unmapped ++ maps).Perm (effects tr).mapped
  freed : ((effects tr).freed ++ bufs).Perm (buffers tr)
  dropped : (effects tr).dropped = []
  made : made tr = live

theorem unwound_append : (effects (tr ++ tr')).unwound = [] ↔
    (effects tr).unwound = [] ∧ (effects tr').unwound = [] := by
  rw [effects_append]
  exact List.append_eq_nil_iff

theorem Leaves.settle {maps : List (ℕ × ℕ)} {bufs : List ℕ} {live base : ℕ} (h : Leaves tr maps bufs live)
    (heffects : effects tr' = { unmapped := maps, dropped := slots elem base 0 live, freed := bufs })
    (hbuffers : buffers tr' = []) (hmade : KernelKit.made tr' = 0) : Settled elem (tr ++ tr') := by
  refine ⟨?_, ?_, base, ?_⟩
  · rw [effects_append, heffects, Effects.append_def]
    simpa only [List.append_nil] using h.mapped
  · rw [effects_append, buffers_append, hbuffers, heffects, Effects.append_def]
    simpa only [List.append_nil] using h.freed
  · rw [effects_append, made_append, hmade, h.made, heffects, Effects.append_def, h.dropped]
    rfl

/-- What is done before without leaving anything. -/
theorem Settled.prepend (h : Settled elem tr') {ranges : List (ℕ × ℕ)}
    (heffects : effects tr = { mapped := ranges, unmapped := ranges }) (hbuffers : buffers tr = [])
    (hmade : made tr = 0) : Settled elem (tr ++ tr') := by
  obtain ⟨hunmapped, hfreed, base, hdropped⟩ := h
  refine ⟨?_, ?_, base, ?_⟩
  · rw [effects_append, heffects]
    exact hunmapped.append_left ranges
  · rw [effects_append, buffers_append, hbuffers, heffects]
    exact hfreed
  · rw [effects_append, made_append, hmade, heffects, Nat.zero_add]
    exact hdropped

theorem Leaves.prepend {maps : List (ℕ × ℕ)} {bufs : List ℕ} {live : ℕ} (h : Leaves tr' maps bufs live)
    {ranges : List (ℕ × ℕ)} (heffects : effects tr = { mapped := ranges, unmapped := ranges })
    (hbuffers : buffers tr = []) (hmade : KernelKit.made tr = 0) : Leaves (tr ++ tr') maps bufs live := by
  obtain ⟨hmapped, hfreed, hdropped, hlive⟩ := h
  refine ⟨?_, ?_, ?_, ?_⟩
  · rw [effects_append, heffects, Effects.append_def, List.append_assoc]
    exact hmapped.append_left ranges
  · rw [effects_append, buffers_append, hbuffers, heffects]
    exact hfreed
  · rw [effects_append, heffects]
    exact hdropped
  · rw [made_append, hmade, hlive, Nat.zero_add]

/-! ### Vectors -/

def IsAdvice : MemOp T → Prop
  | .lastOsError | .madviseHugepage _ _ | .mbind _ _ _ _ _ _ | .runOnNode _ | .tonodeMemory _ _ _ => True
  | _ => False

theorem effects_of_advice {α : Type} {p : MemProg T α} {r : Except Exit α} (hp : p.Only IsAdvice)
    (h : E.Runs p s tr r s') : effects tr = {} ∧ buffers tr = [] ∧ made tr = 0 := by
  have hops := h.ops_only hp
  clear h hp
  induction tr with
  | nil => exact ⟨rfl, rfl, rfl⟩
  | cons c tr ih =>
      rw [List.forall_mem_cons] at hops
      obtain ⟨hop, hrest⟩ := hops
      obtain ⟨heffects, hbuffers, hmade⟩ := ih hrest
      obtain ⟨s, op, answer⟩ := c
      cases op with
      | lastOsError | madviseHugepage | mbind | runOnNode | tonodeMemory =>
          refine ⟨?_, hbuffers, hmade⟩
          rw [effects_cons, heffects]
          rfl
      | _ => exact hop.elim

theorem buffers_of_drop {α : Type} {p : MemProg T α} {r : Except Exit α} (hp : p.Only MemOp.OfDrop)
    (h : E.Runs p s tr r s') : buffers tr = [] ∧ made tr = 0 := by
  refine ⟨buffers_eq_nil (h.ops_only (hp.imp fun _ hop => hop.ofElems.not_isReserve)), ?_⟩
  exact made_eq_zero (defaults_of_only (hp.imp fun _ => MemOp.OfDrop.not_isDefault) h)

theorem runs_vec_drop_effects {vec : RustVec T} {r : Except Exit Unit}
    (h : E.Runs (vec.drop elem) s tr r s') (hunwound : (effects tr).unwound = []) :
    r = .ok () ∧
      effects tr = { dropped := slots elem vec.ptr 0 vec.len, freed := vec.buffer elem } := by
  rcases Env.runs_bind_iff.mp h with ⟨_, rfl, hdrop⟩ | ⟨dropped, s₁, t₁, t₂, hdrop, hfree, rfl⟩
  · obtain ⟨_, ⟨⟩, _⟩ := Env.runs_attempt_iff.mp hdrop
  obtain ⟨_, hdropped, hdrop⟩ := Env.runs_attempt_iff.mp hdrop
  cases hdropped
  obtain ⟨places, unwound, heffects, hends⟩ := runs_dropElements_ends hdrop
  have hnone := (unwound_append.mp hunwound).1
  rw [heffects] at hnone
  obtain rfl : unwound = [] := hnone
  obtain ⟨rfl, -, rfl⟩ | ⟨-, ⟨⟩, -⟩ | ⟨-, ⟨⟩⟩ := hends
  obtain ⟨rfl, hfreed⟩ := runs_free hfree
  refine ⟨rfl, ?_⟩
  rw [effects_append, heffects, hfreed]
  simp only [Effects.append_def, List.nil_append, List.append_nil]

/-- How `resize_with` ends: with as many new elements as it was to make, or after `T::default` unwound and
the elements and the buffer were dropped. -/
theorem runs_resizeWith_ends {values : RustVec T} {remaining : ℕ} {r : Except Exit (RustVec T)}
    (h : E.Runs (values.resizeWith elem remaining) s tr r s') (hunwound : (effects tr).unwound = []) :
    (∃ produced : List T, r = .ok { values with values := values.values ++ produced } ∧
        effects tr = {} ∧ Produces tr produced) ∨
      ∃ exit, ∃ produced : List T, r = .error exit ∧ defaults tr = produced.map some ++ [none] ∧
        effects tr = { dropped := slots elem values.ptr 0 (values.len + produced.length)
                       freed := values.buffer elem } := by
  induction remaining generalizing values s tr with
  | zero =>
      obtain ⟨rfl, rfl, _⟩ := Env.runs_ret_iff.mp h
      exact .inl ⟨[], by rw [List.append_nil], rfl, rfl⟩
  | succ remaining ih =>
      obtain ⟨s₁, value, s₂, tr', _, _, hrest, rfl⟩ := Env.runs_ask_iff.mp h
      cases value with
      | some value =>
          rcases ih hrest hunwound with ⟨produced, hr, heffects, hproduced⟩ |
            ⟨exit, produced, hr, hdefaults, heffects⟩
          · refine .inl ⟨value :: produced, ?_, ?_, ?_⟩
            · rw [hr, List.append_assoc, List.singleton_append]
            · rw [effects_cons, heffects]
              rfl
            · rw [Produces, defaults_makeDefault, hproduced, List.map_cons]
          · refine .inr ⟨exit, value :: produced, hr, ?_, ?_⟩
            · rw [defaults_makeDefault, hdefaults, List.map_cons, List.cons_append]
            · rw [effects_cons, heffects, RustVec.len, List.length_append, List.length_singleton,
                List.length_cons, Nat.add_right_comm, Nat.add_assoc]
              rfl
      | none =>
          rw [Prog.ret_bind] at hrest
          rcases Env.runs_bind_iff.mp hrest with ⟨_, rfl, hdrop⟩ | ⟨cleanup, s₃, t₁, t₂, hdrop, hend, rfl⟩
          · obtain ⟨_, ⟨⟩, _⟩ := Env.runs_attempt_iff.mp hdrop
          obtain ⟨_, hcleanup, hdrop⟩ := Env.runs_attempt_iff.mp hdrop
          cases hcleanup
          have hnone : (effects t₁).unwound = [] := (unwound_append.mp hunwound).1
          obtain ⟨rfl, heffects⟩ := runs_vec_drop_effects hdrop hnone
          obtain ⟨rfl, rfl, _⟩ := Env.runs_fail_iff.mp hend
          rw [List.append_nil]
          refine .inr ⟨.panicked, [], rfl, ?_, ?_⟩
          · rw [defaults_makeDefault, defaults_of_only (RustVec.drop_ofDrop.imp fun _ =>
              MemOp.OfDrop.not_isDefault) hdrop]
            rfl
          · rw [effects_cons, heffects]
            rfl

theorem runs_tryReserve_buffer {r : Except Exit (Except TryReserveError (RustVec T))}
    (h : E.Runs (tryReserve room w elem count) s tr r s') : effects tr = {} ∧ made tr = 0 ∧
      ((∃ error, r = .ok (.error error)) ∧ buffers tr = [] ∨
        ∃ values, r = .ok (.ok values) ∧ values.values = [] ∧ buffers tr = values.buffer elem) := by
  unfold tryReserve at h
  split_ifs at h with hzero
  · obtain ⟨rfl, rfl, _⟩ := Env.runs_ret_iff.mp h
    exact ⟨rfl, rfl, .inr ⟨_, rfl, rfl, rfl⟩⟩
  · obtain ⟨rfl, rfl, _⟩ := Env.runs_ret_iff.mp h
    exact ⟨rfl, rfl, .inl ⟨⟨_, rfl⟩, rfl⟩⟩
  · obtain ⟨_, buffer, _, _, _, _, hrest, rfl⟩ := Env.runs_ask_iff.mp h
    rw [not_or] at hzero
    cases buffer with
    | none =>
        obtain ⟨rfl, rfl, _⟩ := Env.runs_ret_iff.mp hrest
        exact ⟨rfl, rfl, .inl ⟨⟨_, rfl⟩, rfl⟩⟩
    | some ptr =>
        obtain ⟨rfl, rfl, _⟩ := Env.runs_ret_iff.mp hrest
        refine ⟨rfl, rfl, .inr ⟨_, rfl, rfl, ?_⟩⟩
        have hcapacity := (Nat.pos_of_ne_zero hzero.1).trans_le (room.le_capacity elem count)
        rw [RustVec.buffer, if_pos ⟨hcapacity, Nat.pos_of_ne_zero hzero.2⟩]
        rfl

/-- A filled vector leaves itself, and where none is returned nothing is left. -/
theorem runs_filled_settles {refused : TryReserveError → Exit} {r : Except Exit (RustVec T)}
    (h : E.Runs (RustVec.filled room refused w elem count) s tr r s') (hunwound : (effects tr).unwound = []) :
    (∃ values, r = .ok values ∧ Leaves tr [] (values.buffer elem) values.len) ∨
      ∃ exit, r = .error exit ∧ Settled elem tr := by
  rcases Env.runs_bind_iff.mp h with ⟨_, rfl, hreserve⟩ | ⟨reserved, s₁, t₁, t₂, hreserve, hfill, rfl⟩
  · obtain ⟨-, -, ⟨⟨_, ⟨⟩⟩, -⟩ | ⟨_, ⟨⟩, -⟩⟩ := runs_tryReserve_buffer hreserve
  obtain ⟨heffects, hmade, ⟨⟨error, ⟨⟩⟩, hbuffers⟩ | ⟨values, ⟨⟩, hempty, hbuffers⟩⟩ :=
    runs_tryReserve_buffer hreserve
  · obtain ⟨rfl, rfl, _⟩ := Env.runs_fail_iff.mp hfill
    rw [List.append_nil]
    refine .inr ⟨_, rfl, ?_, ?_, 0, ?_⟩
    · rw [heffects]
    · rw [heffects, hbuffers]
    · rw [heffects, hmade]
      rfl
  have hnone : buffers t₂ = [] := buffers_eq_nil
    (hfill.ops_only (RustVec.resizeWith_ofElems.imp fun _ => MemOp.OfElems.not_isReserve))
  rcases runs_resizeWith_ends hfill (unwound_append.mp hunwound).2 with
    ⟨produced, hr, heffects', hproduced⟩ | ⟨exit, produced, hr, hdefaults, heffects'⟩
  · refine .inl ⟨_, hr, ?_, ?_, ?_, ?_⟩
    · rw [effects_append, heffects, heffects']
      exact .nil
    · rw [effects_append, heffects, heffects', buffers_append, hbuffers, hnone, List.append_nil]
      exact .refl _
    · rw [effects_append, heffects, heffects']
      rfl
    · rw [made_append, hmade, made_of_produces hproduced, RustVec.len, hempty, Nat.zero_add]
      rfl
  · refine .inr ⟨exit, hr, ?_, ?_, values.ptr, ?_⟩
    · rw [effects_append, heffects, heffects']
      exact .nil
    · rw [effects_append, heffects, heffects', buffers_append, hbuffers, hnone, List.append_nil]
      exact .refl _
    · rw [effects_append, heffects, heffects', made_append, hmade, made_of_unwound hdefaults, RustVec.len,
        hempty]
      rfl

/-! ### Huge page allocations -/

theorem runs_initElements_made {guard : InitGuard} {index remaining : ℕ}
    (h : E.Runs (initElements elem guard index remaining) s tr (.ok ()) s') :
    ∃ produced, Produces tr produced ∧ produced.length = remaining := by
  induction remaining generalizing guard index s tr with
  | zero =>
      obtain ⟨rfl, _, _⟩ := Env.runs_ret_iff.mp h
      exact ⟨[], rfl, rfl⟩
  | succ remaining ih =>
      cases runs_initElements_succ h with
      | @made value _ _ _ _ _ _ _ _ _ _ _ hloop =>
          obtain ⟨produced, hproduced, hlen⟩ := ih hloop
          refine ⟨value :: produced, ?_, by rw [List.length_cons, hlen]⟩
          rw [Produces, defaults_makeDefault, defaults_cons id, hproduced, List.map_cons]

theorem hugeAllocation_new_not_reserve :
    (HugeAllocation.new w elem count : MemProg T _).Only fun op => ¬ IsReserve op := by
  refine HugeAllocation.new_only (fun _ => id) fun op hop => ?_
  cases op with
  | tryReserve => exact hop.elim
  | _ => exact id

theorem allocation_drop_not_reserve {allocation : HugeAllocation} :
    (allocation.drop elem : MemProg T Unit).Only fun op => ¬ IsReserve op :=
  (dropElements_only fun _ => id).bind fun _ => ⟨id, fun _ => trivial⟩

/-- How an attempt at huge pages ends: with an allocation that is left, without one and without anything
left, or by unwinding after everything was released. -/
theorem runs_new_settles {r : Except Exit (Option HugeAllocation)}
    (h : E.Runs (HugeAllocation.new w elem count) s tr r s') (hunwound : (effects tr).unwound = []) :
    (∃ allocation, r = .ok (some allocation) ∧
        Leaves tr [(allocation.ptr, allocation.mapLen)] [] allocation.count) ∨
      ((r = .ok none ∨ ∃ error, r = .error (.err error)) ∧ (made tr = 0 ∧ buffers tr = []) ∧
        ∃ ranges, effects tr = { mapped := ranges, unmapped := ranges }) ∨
      r = .error .panicked ∧ Settled elem tr := by
  have hbuffers : buffers tr = [] := buffers_eq_nil (h.ops_only hugeAllocation_new_not_reserve)
  have hnothing : (r = .ok none ∨ ∃ error, r = .error (.err error)) → made tr = 0 ∧ buffers tr = [] :=
    fun hr => ⟨made_eq_zero (runs_hugeAllocation_none h hr), hbuffers⟩
  rcases HugeAllocation.new_cases w elem count with heq | ⟨error, heq⟩ | ⟨mapLen, hmapLen, hpos, heq⟩
  · rw [heq] at h
    obtain ⟨rfl, rfl, _⟩ := Env.runs_ret_iff.mp h
    exact .inr (.inl ⟨.inl rfl, ⟨rfl, rfl⟩, [], rfl⟩)
  · rw [heq] at h
    obtain ⟨rfl, rfl, _⟩ := Env.runs_fail_iff.mp h
    exact .inr (.inl ⟨.inr ⟨_, rfl⟩, ⟨rfl, rfl⟩, [], rfl⟩)
  have hsize : elem.size ≠ 0 := by
    intro hsize
    rw [hmapLen, hsize, Nat.mul_zero, roundUp_eq_self (dvd_zero _)] at hpos
    exact lt_irrefl 0 hpos
  have hrun := h
  rw [heq] at h
  obtain ⟨s₁, answer, s₂, tr', _, _, hrest, rfl⟩ := Env.runs_ask_iff.mp h
  cases answer with
  | error _ =>
      obtain ⟨rfl, rfl, _⟩ := Env.runs_ret_iff.mp hrest
      exact .inr (.inl ⟨.inl rfl, ⟨rfl, rfl⟩, [], rfl⟩)
  | ok ptr =>
      have hsafe : ExceptionSafe E elem count (⟨s₁, .mmap mapLen true, .ok ptr⟩ :: tr') r :=
        runs_ofMapping hsize hrest
      cases r with
      | ok found =>
          cases found with
          | none => exact .inr (.inl ⟨.inl rfl, hnothing (.inl rfl), [], hsafe⟩)
          | some allocation =>
              obtain ⟨hcount, -, heffects, -⟩ := hsafe
              obtain ⟨-, -, -, -, _, _, _, -, -, htr, hloop⟩ := runs_new_ok hrun
              obtain ⟨produced, hproduced, hlen⟩ := runs_initElements_made hloop
              refine .inl ⟨allocation, rfl, ?_, ?_, ?_, ?_⟩
              · rw [heffects]
                exact .refl _
              · rw [heffects, hbuffers]
                exact .nil
              · rw [heffects]
              · rw [htr, made, defaults_cons id, hproduced, countP_isSome, hlen, hcount]
      | error exit =>
          cases exit with
          | err error =>
              obtain ⟨ranges, -, heffects⟩ := hsafe
              exact .inr (.inl ⟨.inr ⟨_, rfl⟩, hnothing (.inr ⟨_, rfl⟩), ranges, heffects⟩)
          | panicked =>
              obtain ⟨base, mapLen, values, hdefaults, -, heffects⟩ := hsafe
              refine .inr (.inr ⟨rfl, ?_, ?_, base, ?_⟩)
              · rw [heffects]
              · rw [heffects, hbuffers]
              · rw [heffects, made_of_unwound hdefaults]
          | aborted => exact absurd hunwound hsafe
          | outOfFuel => exact hsafe.elim

/-! ### Vectors that prefer huge pages -/

def HugePageVec.maps (vec : HugePageVec T) : List (ℕ × ℕ) :=
  match vec.backing with
  | .standard _ => []
  | .huge allocation => [(allocation.ptr, allocation.mapLen)]

def HugePageVec.bufs (elem : ElemType) (vec : HugePageVec T) : List ℕ :=
  match vec.backing with
  | .standard values => values.buffer elem
  | .huge _ => []

theorem adviseThp_isAdvice {values : RustVec T} : (adviseThp elem values).Only IsAdvice := by
  unfold adviseThp
  split_ifs
  · trivial
  · exact ⟨trivial, fun _ => trivial⟩

theorem adviseThp_failsOnly {values : RustVec T} :
    (adviseThp elem values).FailsOnly fun _ => False := by
  unfold adviseThp
  split_ifs
  · trivial
  · exact fun _ => trivial

theorem Leaves.advised {maps : List (ℕ × ℕ)} {bufs : List ℕ} {live : ℕ} (h : Leaves tr maps bufs live)
    (hadvice : effects tr' = {} ∧ buffers tr' = [] ∧ KernelKit.made tr' = 0) :
    Leaves (tr ++ tr') maps bufs live := by
  obtain ⟨hmapped, hfreed, hdropped, hlive⟩ := h
  obtain ⟨heffects, hbuffers, hmade⟩ := hadvice
  refine ⟨?_, ?_, ?_, ?_⟩
  · rwa [effects_append, heffects, Effects.append_empty]
  · rwa [effects_append, heffects, Effects.append_empty, buffers_append, hbuffers, List.append_nil]
  · rwa [effects_append, heffects, Effects.append_empty]
  · rw [made_append, hmade, hlive, Nat.add_zero]

theorem runs_newStandard_settles {refused : TryReserveError → Exit} {r : Except Exit (HugePageVec T)}
    (h : E.Runs (HugePageVec.newStandard room refused w elem count) s tr r s')
    (hunwound : (effects tr).unwound = []) :
    (∃ vec, r = .ok vec ∧ Leaves tr vec.maps (vec.bufs elem) vec.len) ∨
      ∃ exit, r = .error exit ∧ Settled elem tr := by
  rcases Env.runs_bind_iff.mp h with ⟨exit, rfl, hfill⟩ | ⟨values, s₁, t₁, t₂, hfill, hhint, rfl⟩
  · obtain ⟨_, ⟨⟩, -⟩ | hsettled := runs_filled_settles hfill hunwound
    obtain ⟨exit, hexit, hsettled⟩ := hsettled
    cases hexit
    exact .inr ⟨_, rfl, hsettled⟩
  obtain ⟨values', hvalues, hleaves⟩ | ⟨_, ⟨⟩, -⟩ :=
    runs_filled_settles hfill (unwound_append.mp hunwound).1
  cases hvalues
  rcases Env.runs_bind_iff.mp hhint with ⟨exit, rfl, hadvise⟩ | ⟨_, s₂, t₃, t₄, hadvise, hend, rfl⟩
  · exact (hadvise.of_failsOnly adviseThp_failsOnly).elim
  · obtain ⟨rfl, rfl, _⟩ := Env.runs_ret_iff.mp hend
    rw [List.append_nil]
    exact .inl ⟨_, rfl, hleaves.advised (effects_of_advice adviseThp_isAdvice hadvise)⟩

/-- A constructor leaves the vector it returns, whichever way it got it; else nothing is left. -/
theorem runs_newWith_settles {refused : TryReserveError → Exit} {r : Except Exit (HugePageVec T)}
    (h : E.Runs (HugePageVec.newWith room refused w elem count) s tr r s')
    (hunwound : (effects tr).unwound = []) :
    (∃ vec, r = .ok vec ∧ Leaves tr vec.maps (vec.bufs elem) vec.len) ∨
      ∃ exit, r = .error exit ∧ Settled elem tr := by
  rcases Env.runs_bind_iff.mp h with ⟨exit, rfl, hcaught⟩ | ⟨found, s₁, t₁, t₂, hcaught, hrest, rfl⟩
  · obtain ⟨_, ⟨⟩, -⟩ | ⟨_, ⟨⟩, -⟩ | ⟨_, hexit, hnot, hnew⟩ := runs_catchErr hcaught
    cases hexit
    rcases runs_new_settles hnew hunwound with ⟨_, ⟨⟩, -⟩ | ⟨⟨⟨⟩⟩ | ⟨error, herror⟩, -⟩ | ⟨_, hsettled⟩
    · exact absurd (Except.error.inj herror) (hnot error)
    · exact .inr ⟨_, rfl, hsettled⟩
  obtain ⟨hunwound₁, hunwound₂⟩ := unwound_append.mp hunwound
  -- without huge pages nothing is left of the attempt, and the `Vec` takes it from there
  have hfallback : made t₁ = 0 ∧ buffers t₁ = [] →
      (∃ ranges, effects t₁ = { mapped := ranges, unmapped := ranges }) →
      E.Runs (HugePageVec.newStandard room refused w elem count) s₁ t₂ r s' →
      (∃ vec, r = .ok vec ∧ Leaves (t₁ ++ t₂) vec.maps (vec.bufs elem) vec.len) ∨
        ∃ exit, r = .error exit ∧ Settled elem (t₁ ++ t₂) := by
    rintro ⟨hmade, hbuffers⟩ ⟨ranges, heffects⟩ hrun
    rcases runs_newStandard_settles hrun hunwound₂ with ⟨vec, hr, hleaves⟩ | ⟨exit, hr, hsettled⟩
    · exact .inl ⟨vec, hr, hleaves.prepend heffects hbuffers hmade⟩
    · exact .inr ⟨exit, hr, hsettled.prepend heffects hbuffers hmade⟩
  rcases runs_catchErr hcaught with ⟨allocation, hfound, hnew⟩ | ⟨error, hfound, hnew⟩ | ⟨_, ⟨⟩, -⟩
  · cases hfound
    rcases runs_new_settles hnew hunwound₁ with ⟨a, ha, hleaves⟩ | ⟨hr, hnothing, heffects⟩ | ⟨⟨⟩, -⟩
    · cases ha
      obtain ⟨rfl, rfl, _⟩ := Env.runs_ret_iff.mp hrest
      rw [List.append_nil]
      exact .inl ⟨_, rfl, hleaves⟩
    · obtain hr | ⟨_, ⟨⟩⟩ := hr
      cases hr
      exact hfallback hnothing heffects hrest
  · cases hfound
    rcases runs_new_settles hnew hunwound₁ with ⟨_, ⟨⟩, -⟩ | ⟨-, hnothing, heffects⟩ | ⟨⟨⟩, -⟩
    exact hfallback hnothing heffects hrest

theorem runs_hugePageVec_drop {vec : HugePageVec T} {r : Except Exit Unit}
    (h : E.Runs (vec.drop elem) s tr r s') (hunwound : (effects tr).unwound = []) :
    (∃ base, effects tr =
        { unmapped := vec.maps, dropped := slots elem base 0 vec.len, freed := vec.bufs elem }) ∧
      buffers tr = [] ∧ made tr = 0 := by
  obtain ⟨values | allocation⟩ := vec
  · exact ⟨⟨values.ptr, (runs_vec_drop_effects h hunwound).2⟩, buffers_of_drop RustVec.drop_ofDrop h⟩
  · refine ⟨⟨allocation.ptr, (release_of_not_unwound h hunwound).2⟩, ?_, ?_⟩
    · exact buffers_eq_nil (h.ops_only allocation_drop_not_reserve)
    · exact made_eq_zero (defaults_of_only allocation_drop_not_isDefault h)

/-! ### Vectors on a node -/

section Node

open Numa

variable {env : NumaEnv} {node : UInt32}

theorem migrateToNode_advises {ptr len : ℕ} :
    (migrateToNode w env ptr len node : MemProg T Unit).Only IsAdvice ∧
      (migrateToNode w env ptr len node : MemProg T Unit).FailsOnly
        fun exit => ∃ error, exit = .err error := by
  have hcall : (tonodeMemory w env ptr len node : MemProg T Unit).Only IsAdvice ∧
      (tonodeMemory w env ptr len node : MemProg T Unit).FailsOnly
        fun exit => ∃ error, exit = .err error := by
    unfold tonodeMemory callWithNode
    cases cIntTryFrom node with
    | none => exact ⟨trivial, _, rfl⟩
    | some n =>
        refine ⟨⟨trivial, fun ⟨result, source⟩ => ?_⟩, fun ⟨result, source⟩ => ?_⟩
        all_goals
          dsimp only [Prog.ret_bind]
          split_ifs
        · trivial
        · trivial
        · trivial
        · exact ⟨_, rfl⟩
  unfold migrateToNode
  cases validateNode w env node with
  | error error => exact ⟨trivial, _, rfl⟩
  | ok _ =>
      dsimp only
      split_ifs
      · exact ⟨trivial, trivial⟩
      cases tryLoad env with
      | error error => exact ⟨trivial, _, rfl⟩
      | ok library =>
          cases library with
          | none => exact ⟨trivial, trivial⟩
          | some library =>
              dsimp only
              split_ifs
              · exact hcall
              · exact ⟨trivial, trivial⟩

theorem throw_advises (error : Error) : (throw error : MemProg T Unit).Only IsAdvice ∧
    (throw error : MemProg T Unit).FailsOnly fun exit => ∃ error, exit = .err error :=
  ⟨trivial, error, rfl⟩

/-- What is done with the values once a migration was tried: they are kept, or dropped if it failed. -/
theorem runs_migrated_settles {t₀ : List (Call σ (MemOp T) MemOp.Ans)} {values : RustVec T}
    {migration : MemProg T Unit} {finish : Except Error Unit → MemProg T (RustVec T)}
    {r : Except Exit (RustVec T)}
    (honly : migration.Only IsAdvice ∧ migration.FailsOnly fun exit => ∃ error, exit = .err error)
    (hkept : finish (.ok ()) = pure values)
    (hdropped : ∀ error, finish (.error error) = do values.drop elem; throw error)
    (hleaves : Leaves t₀ [] (values.buffer elem) values.len)
    (h : E.Runs (catchErr migration >>= finish) s tr r s') (hunwound : (effects tr).unwound = []) :
    r = .ok values ∧ Leaves (t₀ ++ tr) [] (values.buffer elem) values.len ∨
      (∃ exit, r = .error exit) ∧ Settled elem (t₀ ++ tr) := by
  rcases Env.runs_bind_iff.mp h with ⟨exit, rfl, hcaught⟩ | ⟨migrated, s₁, t₁, t₂, hcaught, hend, rfl⟩
  · obtain ⟨_, ⟨⟩, -⟩ | ⟨_, ⟨⟩, -⟩ | ⟨exit, -, hnot, hrun⟩ := runs_catchErr hcaught
    obtain ⟨error, rfl⟩ := hrun.of_failsOnly honly.2
    exact absurd rfl (hnot error)
  have hadvised := hleaves.advised (effects_of_advice (catchErr_only honly.1) hcaught)
  rw [← List.append_assoc]
  cases migrated with
  | ok _ =>
      rw [hkept] at hend
      obtain ⟨rfl, rfl, _⟩ := Env.runs_ret_iff.mp hend
      rw [List.append_nil]
      exact .inl ⟨rfl, hadvised⟩
  | error error =>
      rw [hdropped] at hend
      have hunwound₂ := (unwound_append.mp hunwound).2
      rcases Env.runs_bind_iff.mp hend with ⟨exit, rfl, hdrop⟩ | ⟨_, s₂, t₃, t₄, hdrop, hthrow, rfl⟩
      · obtain ⟨⟨⟩, -⟩ := runs_vec_drop_effects hdrop hunwound₂
      · obtain ⟨rfl, rfl, _⟩ := runs_throw_iff.mp hthrow
        rw [List.append_nil] at hunwound₂ ⊢
        obtain ⟨hbuffers, hmade⟩ := buffers_of_drop RustVec.drop_ofDrop hdrop
        have heffects := (runs_vec_drop_effects hdrop hunwound₂).2
        exact .inr ⟨⟨_, rfl⟩, hadvised.settle heffects hbuffers hmade⟩

/-- The migration leaves the vector, or drops it. -/
theorem runs_migrateValues_settles {t₀ : List (Call σ (MemOp T) MemOp.Ans)} {values : RustVec T}
    {r : Except Exit (RustVec T)} (hleaves : Leaves t₀ [] (values.buffer elem) values.len)
    (h : E.Runs (migrateValues w env elem count node values) s tr r s')
    (hunwound : (effects tr).unwound = []) :
    r = .ok values ∧ Leaves (t₀ ++ tr) [] (values.buffer elem) values.len ∨
      (∃ exit, r = .error exit) ∧ Settled elem (t₀ ++ tr) := by
  unfold migrateValues at h
  split_ifs at h
  · obtain ⟨rfl, rfl, _⟩ := Env.runs_ret_iff.mp h
    rw [List.append_nil]
    exact .inl ⟨rfl, hleaves⟩
  cases hlen : checkedLen w elem count with
  | error error =>
      rw [hlen] at h
      exact runs_migrated_settles (throw_advises error) rfl (fun _ => rfl) hleaves h hunwound
  | ok byteLen =>
      rw [hlen] at h
      exact runs_migrated_settles migrateToNode_advises rfl (fun _ => rfl) hleaves h hunwound

theorem runs_allocOnNode_settles {r : Except Exit (RustVec T)}
    (h : E.Runs (allocOnNode w env elem count node) s tr r s') (hunwound : (effects tr).unwound = []) :
    (∃ values, r = .ok values ∧ Leaves tr [] (values.buffer elem) values.len) ∨
      (∃ exit, r = .error exit) ∧ Settled elem tr := by
  have hnothing : Settled elem ([] : List (Call σ (MemOp T) MemOp.Ans)) := ⟨.nil, .nil, 0, rfl⟩
  unfold allocOnNode at h
  cases hnode : validateNode w env node with
  | error error =>
      rw [hnode] at h
      obtain ⟨rfl, rfl, _⟩ := runs_throw_iff.mp h
      exact .inr ⟨⟨_, rfl⟩, hnothing⟩
  | ok _ =>
      rw [hnode] at h
      dsimp only at h
      cases hchecked : checkedLen w elem count with
      | error error =>
          rw [hchecked] at h
          obtain ⟨rfl, rfl, _⟩ := runs_throw_iff.mp h
          exact .inr ⟨⟨_, rfl⟩, hnothing⟩
      | ok byteLen =>
          rw [hchecked] at h
          rcases Env.runs_bind_iff.mp h with ⟨exit, rfl, hfill⟩ | ⟨values, s₁, t₁, t₂, hfill, hmigrate, rfl⟩
          · obtain ⟨_, ⟨⟩, -⟩ | ⟨_, -, hsettled⟩ := runs_filled_settles hfill hunwound
            exact .inr ⟨⟨_, rfl⟩, hsettled⟩
          obtain ⟨hunwound₁, hunwound₂⟩ := unwound_append.mp hunwound
          obtain ⟨_, hvalues, hleaves⟩ | ⟨_, ⟨⟩, -⟩ := runs_filled_settles hfill hunwound₁
          cases hvalues
          rcases runs_migrateValues_settles hleaves hmigrate hunwound₂ with ⟨rfl, hleaves'⟩ | hsettled
          · exact .inl ⟨_, rfl, hleaves'⟩
          · exact .inr hsettled

def allocLife (w : Width) (env : NumaEnv) (elem : ElemType) (count : ℕ) (node : UInt32) :
    MemProg T Unit := do
  let values ← allocOnNode w env elem count node
  values.drop elem

/-- Wherever the allocation on a node fails, be it the node, the size, the allocator, `T::default`, loading
libnuma or the migration of a buffer that is already filled, its buffer is freed and its elements are
dropped, each exactly once, as they are when it succeeds and the buffer is dropped later. -/
theorem allocOnNode_life_settled (w : Width) (env : NumaEnv) (elem : ElemType) (count : ℕ) (node : UInt32)
    (E : Env σ (MemOp T) MemOp.Ans) (s s' : σ) (tr : List (Call σ (MemOp T) MemOp.Ans))
    (r : Except Exit Unit) (h : E.Runs (allocLife w env elem count node) s tr r s')
    (hunwound : (effects tr).unwound = []) : Settled elem tr := by
  rcases Env.runs_bind_iff.mp h with ⟨exit, rfl, halloc⟩ | ⟨values, s₁, t₁, t₂, halloc, hdrop, rfl⟩
  · obtain ⟨_, ⟨⟩, -⟩ | ⟨-, hsettled⟩ := runs_allocOnNode_settles halloc hunwound
    exact hsettled
  · obtain ⟨hunwound₁, hunwound₂⟩ := unwound_append.mp hunwound
    obtain ⟨_, hvalues, hleaves⟩ | ⟨⟨_, ⟨⟩⟩, -⟩ := runs_allocOnNode_settles halloc hunwound₁
    cases hvalues
    obtain ⟨hbuffers, hmade⟩ := buffers_of_drop RustVec.drop_ofDrop hdrop
    exact hleaves.settle (runs_vec_drop_effects hdrop hunwound₂).2 hbuffers hmade

theorem runs_drop_byte (addr : ℕ) : (memEnv (hugeHost 21) UInt8).Runs
    (RustVec.drop byteType ⟨addr, 1, [0]⟩) (fun _ => none)
    [⟨fun _ => none, .dropInPlace addr, false⟩, ⟨fun _ => none, .dealloc addr, ()⟩] (.ok ())
    (fun _ => none) :=
  .ask .refl rfl (.ask .refl rfl (.ret _ _))

/-- A byte is allocated on the second node, and libnuma refuses to migrate it: it is dropped, and its
buffer is freed. -/
theorem allocOnNode_life_settled_refused : ∃ tr r, (memEnv (hugeHost 21) UInt8).Runs
    (allocLife .w64 twoNodes byteType 1 1) (fun _ => none) tr r (fun _ => none) ∧
      (effects tr).freed = [4096] ∧ Settled byteType tr := by
  have hmigrate : (memEnv (hugeHost 21) UInt8).Runs (migrateToNode .w64 twoNodes 4096 1 1) (fun _ => none)
      [⟨fun _ => none, .tonodeMemory 4096 1 1, (-1, .os 1)⟩]
      (.error (.err (.system "numa_tonode_memory" (.os 1)))) (fun _ => none) := by
    unfold migrateToNode
    rw [validateNode_twoNodes]
    dsimp only
    rw [if_neg (by decide), tryLoad_twoNodes]
    exact .ask .refl rfl (.fail _ _)
  have halloc : (memEnv (hugeHost 21) UInt8).Runs (allocOnNode .w64 twoNodes byteType 1 1) (fun _ => none)
      [⟨fun _ => none, .tryReserve 8, some 4096⟩, ⟨fun _ => none, .makeDefault, some 0⟩,
        ⟨fun _ => none, .tonodeMemory 4096 1 1, (-1, .os 1)⟩, ⟨fun _ => none, .dropInPlace 4096, false⟩,
        ⟨fun _ => none, .dealloc 4096, ()⟩]
      (.error (.err (.system "numa_tonode_memory" (.os 1)))) (fun _ => none) := by
    unfold allocOnNode
    rw [validateNode_twoNodes]
    refine .ask .refl rfl (.ask .refl rfl ?_)
    exact (runs_catchErr_error hmigrate).bind ((runs_drop_byte 4096).bind (.fail _ _))
  have hlife : (memEnv (hugeHost 21) UInt8).Runs (allocLife .w64 twoNodes byteType 1 1) (fun _ => none) _
      (.error _) (fun _ => none) := Env.runs_bind_iff.mpr (.inl ⟨_, rfl, halloc⟩)
  exact ⟨_, _, hlife, rfl, allocOnNode_life_settled _ _ _ _ _ _ _ _ _ _ hlife rfl⟩

end Node

/-! ### Lives -/

inductive VecRequest
  | new (count : ℕ)
  | newFallible (count : ℕ)
  | tryNew (count : ℕ)

def VecRequest.run (w : Width) (elem : ElemType) : VecRequest → MemProg T (HugePageVec T)
  | .new count => HugePageVec.new w elem count
  | .newFallible count => HugePageVec.newFallible w elem count
  | .tryNew count => HugePageVec.tryNew w elem count

def vecLife (w : Width) (elem : ElemType) (request : VecRequest) : MemProg T Unit := do
  let vec ← request.run w elem
  vec.drop elem

/-- Whichever constructor is called, whatever `mmap` and the allocator answer, and wherever `T::default`
unwinds: at the end `munmap` was called for every mapping, every buffer was freed and every element was
dropped, each exactly once. -/
theorem hugePageVec_life_settled (w : Width) (elem : ElemType) (request : VecRequest)
    (E : Env σ (MemOp T) MemOp.Ans) (s s' : σ) (tr : List (Call σ (MemOp T) MemOp.Ans))
    (r : Except Exit Unit) (h : E.Runs (vecLife w elem request) s tr r s')
    (hunwound : (effects tr).unwound = []) : Settled elem tr := by
  have hsettles : ∀ {tr s'} {r : Except Exit (HugePageVec T)}, E.Runs (request.run w elem) s tr r s' →
      (effects tr).unwound = [] → (∃ vec, r = .ok vec ∧ Leaves tr vec.maps (vec.bufs elem) vec.len) ∨
        ∃ exit, r = .error exit ∧ Settled elem tr := by
    intro tr s' r hrun hunwound
    cases request with
    | new | newFallible | tryNew => exact runs_newWith_settles hrun hunwound
  rcases Env.runs_bind_iff.mp h with ⟨exit, rfl, hnew⟩ | ⟨vec, s₁, t₁, t₂, hnew, hdrop, rfl⟩
  · obtain ⟨_, ⟨⟩, -⟩ | ⟨_, -, hsettled⟩ := hsettles hnew hunwound
    exact hsettled
  · obtain ⟨hunwound₁, hunwound₂⟩ := unwound_append.mp hunwound
    obtain ⟨_, hvec, hleaves⟩ | ⟨_, ⟨⟩, -⟩ := hsettles hnew hunwound₁
    cases hvec
    obtain ⟨⟨base, heffects⟩, hbuffers, hmade⟩ := runs_hugePageVec_drop hdrop hunwound₂
    exact hleaves.settle heffects hbuffers hmade

/-- There are no huge pages for a byte, which goes into a `Vec`. -/
theorem hugePageVec_life_settled_fallback : ∃ tr, (memEnv (hugeHost 21) UInt8).Runs
    (vecLife .w64 byteType (.tryNew 1)) (fun _ => none) tr (.ok ()) (fun _ => none) ∧
      (effects tr).freed = [4096] ∧ Settled byteType tr := by
  have hnew : (memEnv (hugeHost 21) UInt8).Runs (HugeAllocation.new .w64 byteType 1) (fun _ => none)
      [⟨fun _ => none, .mmap hugepageBytes true, .error (.os 12)⟩] (.ok none) (fun _ => none) := by
    have hlen : checkedLen .w64 byteType 1 = .ok 1 := by decide
    have hround : alignUp .w64 1 hugepageBytes = some hugepageBytes := by decide
    rw [HugeAllocation.new_eq (by decide) hlen hround]
    exact .ask .refl rfl (.ret _ _)
  have hstandard : ∀ refused, (memEnv (hugeHost 21) UInt8).Runs
      (HugePageVec.newStandard .amortized refused .w64 byteType 1) (fun _ => none)
      [⟨fun _ => none, .tryReserve 8, some 4096⟩, ⟨fun _ => none, .makeDefault, some 0⟩,
        ⟨fun _ => none, .madviseHugepage 4096 1, .ok ()⟩]
      (.ok ⟨.standard ⟨4096, 8, [0]⟩⟩) (fun _ => none) := fun refused =>
    .ask .refl rfl (.ask .refl rfl (.ask .refl rfl (.ret _ _)))
  have hmade : (memEnv (hugeHost 21) UInt8).Runs (VecRequest.run .w64 byteType (.tryNew 1)) (fun _ => none) _
      (.ok ⟨.standard ⟨4096, 8, [0]⟩⟩) (fun _ => none) := (runs_catchErr_ok hnew).bind (hstandard _)
  have hlife : (memEnv (hugeHost 21) UInt8).Runs (vecLife .w64 byteType (.tryNew 1)) (fun _ => none) _
      (.ok ()) (fun _ => none) := hmade.bind (runs_drop_byte 4096)
  exact ⟨_, hlife, rfl, hugePageVec_life_settled _ _ _ _ _ _ _ _ hlife rfl⟩

end KernelKit
