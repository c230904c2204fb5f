import KernelKit.HugePagesEffects

/-!
# Releasing huge page mappings

The mapping is made in whole default huge pages of the system, and released with a length that is
rounded to 2 MiB. The release takes effect exactly if that length is a whole number of huge pages, and
it is reached only if no destructor unwinds on the way to it.
-/

namespace KernelKit
open Interaction

variable {host : Host} {elem : ElemType} {T : Type} {space space' : AddressSpace}
  {tr tr' : List (MemCall T)}

def Unwinds (tr : List (MemCall T)) : Prop := ∃ s addr, ⟨s, .dropInPlace addr, true⟩ ∈ tr

def Obtains (tr : List (MemCall T)) (len addr : ℕ) : Prop := ∃ s, ⟨s, .mmap len true, .ok addr⟩ ∈ tr

/-- No byte of a mapping obtained in the run is still mapped at its end. -/
def Released (host : Host) (tr : List (MemCall T)) (space' : AddressSpace) : Prop :=
  ∀ len addr, Obtains tr len addr → space'.Free addr (roundUp len host.hugePageSize)

@[simp] theorem not_unwinds_nil : ¬ Unwinds ([] : List (MemCall T)) := by
  rintro ⟨_, _, h⟩
  cases h

@[simp] theorem unwinds_append : Unwinds (tr ++ tr') ↔ Unwinds tr ∨ Unwinds tr' := by
  simp only [Unwinds, List.mem_append, exists_or]

theorem not_obtains_nil (len addr : ℕ) : ¬ Obtains ([] : List (MemCall T)) len addr := by
  rintro ⟨_, ⟨⟩⟩

theorem unwinds_cons {c : MemCall T} (hc : ∀ addr, c.op ≠ .dropInPlace addr) :
    Unwinds (c :: tr) ↔ Unwinds tr := by
  constructor
  · rintro ⟨s, addr, h⟩
    rcases List.mem_cons.mp h with rfl | h
    · exact absurd rfl (hc addr)
    · exact ⟨s, addr, h⟩
  · rintro ⟨s, addr, h⟩
    exact ⟨s, addr, List.mem_cons_of_mem _ h⟩

theorem effectOf_unwound_ne_nil {c : MemCall T} :
    (effectOf c).unwound ≠ [] ↔ ∃ s addr, ⟨s, .dropInPlace addr, true⟩ = c := by
  constructor
  · intro hne
    obtain ⟨s, op, answer⟩ := c
    cases op with
    | dropInPlace addr =>
        cases answer with
        | true => exact ⟨s, addr, rfl⟩
        | false => exact absurd rfl hne
    | mmap len huge =>
        cases answer with
        | ok addr => exact absurd rfl hne
        | error e => exact absurd rfl hne
    | _ => exact absurd rfl hne
  · rintro ⟨s, addr, rfl⟩
    exact List.cons_ne_nil addr []

theorem unwinds_iff : Unwinds tr ↔ (effects tr).unwound ≠ [] := by
  have hne : (effects tr).unwound ≠ [] ↔ ∃ c ∈ tr, (effectOf c).unwound ≠ [] := by
    rw [effects_flatMap Effects.unwound rfl fun _ _ => rfl, ne_eq, List.flatMap_eq_nil_iff]
    simp only [not_forall, exists_prop, ne_eq]
  rw [hne]
  constructor
  · rintro ⟨s, addr, hmem⟩
    exact ⟨_, hmem, effectOf_unwound_ne_nil.mpr ⟨s, addr, rfl⟩⟩
  · rintro ⟨c, hmem, hc⟩
    obtain ⟨s, addr, rfl⟩ := effectOf_unwound_ne_nil.mp hc
    exact ⟨s, addr, hmem⟩

/-! ### Dropping elements -/

theorem dropElements_not_maps {ptr index remaining : ℕ} {unwinding : Bool} :
    (dropElements elem ptr index remaining unwinding : MemProg T Unit).Only fun op => ¬ op.Maps :=
  dropElements_only fun _ => id

theorem unwinding_or_unwound {unwinding : Bool} {unwound : List ℕ}
    (hpos : 0 < unwinding.toNat + unwound.length) : unwinding = true ∨ unwound ≠ [] := by
  cases unwinding with
  | true => exact .inl rfl
  | false => exact .inr (List.ne_nil_of_length_pos (by simpa using hpos))

theorem runs_dropElements {ptr index remaining : ℕ} {unwinding : Bool} {r : Except Exit Unit}
    (h : (memEnv host T).Runs (dropElements elem ptr index remaining unwinding) space tr r space') :
    r = .ok () ∧ unwinding = false ∧ ¬ Unwinds tr ∨
      (∃ e, r = .error e) ∧ (unwinding = true ∨ Unwinds tr) := by
  obtain ⟨dropped, unwound, heffects, hends⟩ := runs_dropElements_ends h
  rw [unwinds_iff, heffects]
  dsimp only
  rcases hends with ⟨hr, hzero, _⟩ | ⟨hr, hone, _⟩ | ⟨hr, htwo⟩
  · obtain ⟨hunwinding, hunwound⟩ := Nat.add_eq_zero_iff.mp hzero
    rw [not_not, ← List.length_eq_zero_iff]
    exact .inl ⟨hr, by simpa using hunwinding, hunwound⟩
  · refine .inr ⟨⟨_, hr⟩, unwinding_or_unwound ?_⟩
    omega
  · refine .inr ⟨⟨_, hr⟩, unwinding_or_unwound ?_⟩
    omega

def AddressSpace.afterUnmap (space : AddressSpace) (host : Host) (addr len : ℕ) : AddressSpace :=
  (space.munmap host addr len).getD space

theorem runs_unmap {ptr len : ℕ} {r : Except Exit Unit}
    (h : (memEnv host T).Runs (unmap ptr len) space tr r space') :
    r = .ok () ∧ ¬ Unwinds tr ∧ space' = space.afterUnmap host ptr len := by
  obtain ⟨s, answer, s', tr', hrely, hserve, hrest, rfl⟩ := Env.runs_ask_iff.mp h
  obtain ⟨rfl, rfl, rfl⟩ := Env.runs_ret_iff.mp hrest
  have hs := eq_of_memEnv_interfere hrely
  subst hs
  refine ⟨rfl, ?_, serve_munmap hserve⟩
  rw [unwinds_cons (by rintro addr ⟨⟩)]
  exact not_unwinds_nil

/-- The release of a mapping was tried, unless a destructor unwound before it. -/
def ReleaseTried (host : Host) (addr len : ℕ) (space : AddressSpace) (tr : List (MemCall T))
    (space' : AddressSpace) : Prop :=
  ¬ Unwinds tr ∧ space' = space.afterUnmap host addr len ∨ Unwinds tr ∧ space' = space

/-- A drop of elements and then the release, as both destructors of the module do it. -/
theorem runs_drop_unmap {ptr len count : ℕ} {r : Except Exit Unit}
    (h : (memEnv host T).Runs (do
      dropSlice elem ptr count
      unmap ptr len) space tr r space') : ReleaseTried host ptr len space tr space' := by
  rcases Env.runs_bind_iff.mp h with ⟨e, rfl, hdrop⟩ | ⟨_, s₁, t₁, t₂, hdrop, hunmap, rfl⟩
  · obtain ⟨⟨⟩, _⟩ | ⟨_, ⟨⟨⟩⟩ | hunwinds⟩ := runs_dropElements hdrop
    exact .inr ⟨hunwinds, eq_of_runs_not_maps dropElements_not_maps hdrop⟩
  · obtain ⟨_, _, hno⟩ | ⟨⟨_, ⟨⟩⟩, _⟩ := runs_dropElements hdrop
    have hs := eq_of_runs_not_maps dropElements_not_maps hdrop
    subst hs
    obtain ⟨_, hno', hspace⟩ := runs_unmap hunmap
    rw [ReleaseTried, unwinds_append]
    exact .inl ⟨not_or.mpr ⟨hno, hno'⟩, hspace⟩

theorem runs_guard_drop {guard : InitGuard} {r : Except Exit Unit}
    (h : (memEnv host T).Runs (guard.drop elem) space tr r space') :
    ReleaseTried host guard.ptr guard.mapLen space tr space' := by
  unfold InitGuard.drop at h
  split_ifs at h
  · exact runs_drop_unmap h
  · exact .inl (runs_unmap h).2

/-! ### The initialization loop -/

/-- The loop leaves the mapping alone, or it ends by unwinding and the guard has tried the release. -/
theorem runs_initElements {guard : InitGuard} {index remaining : ℕ} {r : Except Exit Unit}
    (h : (memEnv host T).Runs (initElements elem guard index remaining) space tr r space') :
    (r = .ok () ∧ ¬ Unwinds tr ∧ space' = space) ∨
      (∃ e, r = .error e) ∧ ReleaseTried host guard.ptr guard.mapLen space tr space' := by
  induction remaining generalizing guard index space tr with
  | zero =>
      obtain ⟨rfl, rfl, rfl⟩ := Env.runs_ret_iff.mp h
      exact .inl ⟨rfl, not_unwinds_nil, rfl⟩
  | succ remaining ih =>
      cases runs_initElements_succ h with
      | made hrely hmake hrely' hwrite hloop =>
          obtain rfl := eq_of_memEnv_interfere hrely
          obtain rfl := eq_of_serve_not_maps id hmake
          obtain rfl := eq_of_memEnv_interfere hrely'
          obtain rfl := eq_of_serve_not_maps id hwrite
          rw [ReleaseTried, unwinds_cons (by rintro addr ⟨⟩), unwinds_cons (by rintro addr ⟨⟩)]
          have hlater := ih hloop
          exact hlater
      | unwound hrely hmake hdrop =>
          obtain rfl := eq_of_memEnv_interfere hrely
          obtain rfl := eq_of_serve_not_maps id hmake
          rw [ReleaseTried, unwinds_cons (by rintro addr ⟨⟩)]
          exact .inr ⟨⟨_, rfl⟩, runs_guard_drop hdrop⟩

/-! ### The mapping calls of an allocation -/

theorem not_obtains {α : Type} {p : MemProg T α} {r : Except Exit α} (hp : p.Only MemOp.OfHuge)
    (h : (memEnv host T).Runs p space tr r space') (len addr : ℕ) : ¬ Obtains tr len addr := by
  rintro ⟨s, hmem⟩
  exact h.ops_only hp _ hmem

/-- `space₁` is `space` after `mmap` has handed out `len` bytes of huge pages at `addr`. -/
structure HugeMapped (host : Host) (space : AddressSpace) (len addr : ℕ) (space₁ : AddressSpace) :
    Prop where
  pos : 0 < len
  aligned : host.hugePageSize ∣ addr
  free : space.Free addr (roundUp len host.hugePageSize)
  eq : space₁ = space.fill addr (roundUp len host.hugePageSize) (some .huge)

theorem HugeMapped.lt {len addr : ℕ} {space₁ : AddressSpace}
    (h : HugeMapped host space len addr space₁) : addr < addr + roundUp len host.hugePageSize := by
  have hle : len ≤ roundUp len host.hugePageSize := le_roundUp (host.granule_pos .huge)
  have hpos := h.pos
  omega

theorem HugeMapped.start {len addr : ℕ} {space₁ : AddressSpace}
    (h : HugeMapped host space len addr space₁) : space₁ addr = some .huge := by
  rw [h.eq]
  exact AddressSpace.fill_of_mem le_rfl h.lt

theorem HugeMapped.not_free {len addr : ℕ} {space₁ : AddressSpace}
    (h : HugeMapped host space len addr space₁) :
    ¬ space₁.Free addr (roundUp len host.hugePageSize) := by
  intro hfree
  have hnone := hfree addr le_rfl h.lt
  rw [h.start] at hnone
  cases hnone

theorem HugeMapped.afterUnmap_free {len addr : ℕ} {space₁ : AddressSpace}
    (h : HugeMapped host space len addr space₁) :
    (space₁.afterUnmap host addr len).Free addr (roundUp len host.hugePageSize) ↔
      host.hugePageSize ∣ len := by
  by_cases hdvd : host.hugePageSize ∣ len
  · have hunmap : space₁.munmap host addr len = some space := by
      rw [AddressSpace.munmap, h.start]
      dsimp only
      rw [if_pos ⟨h.aligned, hdvd⟩, h.eq, roundUp_eq_self hdvd,
        AddressSpace.fill_fill (roundUp_eq_self hdvd ▸ h.free)]
    rw [AddressSpace.afterUnmap, hunmap, Option.getD_some]
    exact iff_of_true h.free hdvd
  · have hunmap : space₁.munmap host addr len = none := by
      rw [AddressSpace.munmap, h.start]
      exact if_neg fun hboth => hdvd hboth.2
    rw [AddressSpace.afterUnmap, hunmap, Option.getD_none]
    exact iff_of_false h.not_free hdvd

/-- The mapping is gone after its release was tried exactly if its length is a whole number of huge
pages and no destructor unwound. -/
theorem ReleaseTried.free_iff {len addr : ℕ} {space₁ : AddressSpace}
    (h : ReleaseTried host addr len space₁ tr space') (hmap : HugeMapped host space len addr space₁) :
    space'.Free addr (roundUp len host.hugePageSize) ↔ host.hugePageSize ∣ len ∧ ¬ Unwinds tr := by
  rcases h with ⟨hno, rfl⟩ | ⟨hunwinds, rfl⟩
  · rw [hmap.afterUnmap_free]
    exact ⟨fun hdvd => ⟨hdvd, hno⟩, And.left⟩
  · exact iff_of_false hmap.not_free fun hboth => hboth.2 hunwinds

/-! ### The whole life of an allocation -/

theorem hugeMapped_of_serve {len addr : ℕ} (hpos : 0 < len)
    (h : (memEnv host T).serve (.mmap len true) space (.ok addr) space') :
    HugeMapped host space len addr space' := by
  obtain ⟨haligned, _, hfree, heq⟩ := h
  exact ⟨hpos, haligned, hfree, heq⟩

theorem runs_unmap_throw {α : Type} {ptr len : ℕ} {error : Error} {r : Except Exit α}
    (h : (memEnv host T).Runs (do
      unmap ptr len
      throw error) space tr r space') :
    (∃ e, r = .error e) ∧ ReleaseTried host ptr len space tr space' := by
  rcases Env.runs_bind_iff.mp h with ⟨e, rfl, hunmap⟩ | ⟨_, s₁, t₁, t₂, hunmap, hthrow, rfl⟩
  · exact ⟨⟨e, rfl⟩, .inl (runs_unmap hunmap).2⟩
  · obtain ⟨rfl, rfl, rfl⟩ := runs_throw_iff.mp hthrow
    rw [List.append_nil]
    exact ⟨⟨_, rfl⟩, .inl (runs_unmap hunmap).2⟩

theorem runs_initElements_pure {α : Type} {guard : InitGuard} {index remaining : ℕ} {a : α}
    {r : Except Exit α}
    (h : (memEnv host T).Runs (do
      initElements elem guard index remaining
      pure a) space tr r space') :
    (r = .ok a ∧ ¬ Unwinds tr ∧ space' = space) ∨
      (∃ e, r = .error e) ∧ ReleaseTried host guard.ptr guard.mapLen space tr space' := by
  rcases Env.runs_bind_iff.mp h with ⟨e, rfl, hloop⟩ | ⟨_, s₁, t₁, t₂, hloop, hend, rfl⟩
  · obtain ⟨⟨⟩, _⟩ | ⟨_, htried⟩ := runs_initElements hloop
    exact .inr ⟨⟨e, rfl⟩, htried⟩
  · obtain ⟨_, hno, hspace⟩ | ⟨⟨_, ⟨⟩⟩, _⟩ := runs_initElements hloop
    obtain ⟨rfl, rfl, rfl⟩ := Env.runs_ret_iff.mp hend
    rw [List.append_nil]
    exact .inl ⟨rfl, hno, hspace⟩

/-- A run of `HugeAllocation.new` obtains no mapping and returns no allocation, or it obtains one
mapping, and then returns it or has tried to release it. -/
theorem runs_hugeAllocation_new {count : ℕ} {r : Except Exit (Option HugeAllocation)}
    (h : (memEnv host T).Runs (HugeAllocation.new host.width elem count) space tr r space') :
    ((∀ len addr, ¬ Obtains tr len addr) ∧ ∀ allocation, r ≠ .ok (some allocation)) ∨
      ∃ len addr space₁ tr', len = roundUp (count * elem.size) hugepageBytes ∧
        HugeMapped host space len addr space₁ ∧ tr = ⟨space, .mmap len true, .ok addr⟩ :: tr' ∧
        (∀ len addr, ¬ Obtains tr' len addr) ∧
        (r = .ok (some ⟨addr, count, len⟩) ∧ ¬ Unwinds tr' ∧ space' = space₁ ∨
          (∃ e, r = .error e) ∧ ReleaseTried host addr len space₁ tr' space') := by
  rcases HugeAllocation.new_cases host.width elem count with
    heq | ⟨error, heq⟩ | ⟨mapLen, hmapLen, hpos, heq⟩
  · rw [heq] at h
    obtain ⟨rfl, rfl, _⟩ := Env.runs_ret_iff.mp h
    exact .inl ⟨not_obtains_nil, by rintro allocation ⟨⟩⟩
  · rw [heq] at h
    obtain ⟨rfl, rfl, _⟩ := Env.runs_fail_iff.mp h
    exact .inl ⟨not_obtains_nil, by rintro allocation ⟨⟩⟩
  rw [heq] at h
  obtain ⟨answer, s', tr', hserve, hrest, rfl⟩ := memEnv_quiet.runs_ask_iff.mp h
  cases answer with
  | error _ =>
      obtain ⟨rfl, rfl, _⟩ := Env.runs_ret_iff.mp hrest
      refine .inl ⟨?_, by rintro allocation ⟨⟩⟩
      rintro len addr ⟨_, hmem⟩
      cases hmem with
      | tail _ hmem => cases hmem
  | ok addr =>
      refine .inr ⟨mapLen, addr, s', tr', hmapLen, hugeMapped_of_serve hpos hserve, rfl, ?_⟩
      dsimp only at hrest
      refine ⟨not_obtains HugeAllocation.ofMapping_ofHuge hrest, ?_⟩
      unfold HugeAllocation.ofMapping at hrest
      split_ifs at hrest with halign haddr
      · obtain ⟨_, tr'', hthrow, rfl⟩ := runs_not_maps_bind id hrest
        obtain ⟨herr, htried⟩ := runs_unmap_throw hthrow
        refine .inr ⟨herr, ?_⟩
        rw [ReleaseTried, unwinds_cons (by rintro addr ⟨⟩)]
        exact htried
      · exact runs_initElements_pure hrest
      · exact .inr (runs_unmap_throw hrest)

/-- The allocation together with its drop: no mapping is obtained, or one is and its release is tried. -/
theorem runs_allocateAndDrop {count : ℕ} {r : Except Exit Unit}
    (h : (memEnv host T).Runs (allocateAndDrop host.width elem count) space tr r space') :
    (∀ len addr, ¬ Obtains tr len addr) ∨
      ∃ len addr space₁ tr', len = roundUp (count * elem.size) hugepageBytes ∧
        HugeMapped host space len addr space₁ ∧ tr = ⟨space, .mmap len true, .ok addr⟩ :: tr' ∧
        (∀ len addr, ¬ Obtains tr' len addr) ∧ ReleaseTried host addr len space₁ tr' space' := by
  rcases Env.runs_bind_iff.mp h with ⟨e, rfl, hnew⟩ | ⟨allocation, s₁, t₁, t₂, hnew, hdrop, rfl⟩
  · rcases runs_hugeAllocation_new hnew with
      ⟨hno, _⟩ | ⟨len, addr, space₁, tr', hlen, hmap, htr, hno, ⟨⟨⟩, _⟩ | ⟨_, htried⟩⟩
    · exact .inl hno
    · exact .inr ⟨len, addr, space₁, tr', hlen, hmap, htr, hno, htried⟩
  · rcases runs_hugeAllocation_new hnew with
      ⟨hno, hnone⟩ | ⟨len, addr, space₁, tr', hlen, hmap, rfl, hno, ⟨hr, hunwinds, rfl⟩ | ⟨⟨_, ⟨⟩⟩, _⟩⟩
    · cases allocation with
      | some allocation => exact absurd rfl (hnone allocation)
      | none =>
          obtain ⟨rfl, _, _⟩ := Env.runs_ret_iff.mp hdrop
          rw [List.append_nil]
          exact .inl hno
    · cases hr
      have hno₂ := not_obtains (dropSlice_ofHuge.bind fun _ => unmap_ofHuge) hdrop
      refine .inr ⟨len, addr, s₁, tr' ++ t₂, hlen, hmap, rfl, ?_, ?_⟩
      · rintro len addr ⟨s, hmem⟩
        rcases List.mem_append.mp hmem with hmem | hmem
        · exact hno len addr ⟨s, hmem⟩
        · exact hno₂ len addr ⟨s, hmem⟩
      · have htried := runs_drop_unmap hdrop
        rw [ReleaseTried, unwinds_append, or_iff_right hunwinds]
        exact htried

/-- Every mapping that an allocation obtains is gone after its drop exactly if its length is a whole
number of default huge pages and no destructor unwinds. -/
theorem allocateAndDrop_released_iff (host : Host) (elem : ElemType) (T : Type) (count : ℕ)
    (space space' : AddressSpace) (tr : List (MemCall T)) (r : Except Exit Unit)
    (h : (memEnv host T).Runs (allocateAndDrop host.width elem count) space tr r space') :
    Released host tr space' ↔
      ((∃ len addr, Obtains tr len addr) →
        host.hugePageSize ∣ roundUp (count * elem.size) hugepageBytes ∧ ¬ Unwinds tr) := by
  rcases runs_allocateAndDrop h with hno | ⟨len, addr, space₁, tr', hlen, hmap, rfl, hno, htried⟩
  · refine iff_of_true (fun len addr hobtains => absurd hobtains (hno len addr)) ?_
    rintro ⟨len, addr, hobtains⟩
    exact absurd hobtains (hno len addr)
  · rw [unwinds_cons (by rintro addr ⟨⟩), ← hlen, ← htried.free_iff hmap]
    have hobtains : Obtains (⟨space, .mmap len true, .ok addr⟩ :: tr') len addr :=
      ⟨space, List.mem_cons_self⟩
    constructor
    · exact fun hreleased _ => hreleased len addr hobtains
    · rintro hfree len' addr' ⟨s, hmem⟩
      rcases List.mem_cons.mp hmem with heq | hmem
      · cases heq
        exact hfree ⟨len, addr, hobtains⟩
      · exact absurd ⟨s, hmem⟩ (hno len' addr')

theorem runs_allocateAndDrop_byte (k addr : ℕ) (space₁ space' : AddressSpace)
    (answer : Except IoError Unit) (haddr : addr ≠ 0)
    (hmap : memServe (hugeHost k) (T := UInt8) (.mmap hugepageBytes true) space (.ok addr) space₁)
    (hunmap : memServe (hugeHost k) (T := UInt8) (.munmap addr hugepageBytes) space₁ answer space') :
    (memEnv (hugeHost k) UInt8).Runs (allocateAndDrop .w64 byteType 1) space
      [⟨space, .mmap hugepageBytes true, .ok addr⟩, ⟨space₁, .makeDefault, some 0⟩,
        ⟨space₁, .write addr 0, ()⟩, ⟨space₁, .dropInPlace addr, false⟩,
        ⟨space₁, .munmap addr hugepageBytes, answer⟩] (.ok ()) space' := by
  have hone : byteType.align ∣ addr := Nat.one_dvd addr
  have hinit : (memEnv (hugeHost k) UInt8).Runs (initElements byteType ⟨addr, hugepageBytes, 0⟩ 0 1)
      space₁ [⟨space₁, .makeDefault, some 0⟩, ⟨space₁, .write addr 0, ()⟩] (.ok ()) space₁ :=
    .ask .refl rfl (.ask .refl rfl (.ret () space₁))
  have hdrop : (memEnv (hugeHost k) UInt8).Runs (HugeAllocation.drop byteType ⟨addr, 1, hugepageBytes⟩)
      space₁ [⟨space₁, .dropInPlace addr, false⟩, ⟨space₁, .munmap addr hugepageBytes, answer⟩]
      (.ok ()) space' :=
    .ask .refl rfl (.ask .refl hunmap (.ret () space'))
  have hnew : (memEnv (hugeHost k) UInt8).Runs (HugeAllocation.new .w64 byteType 1) space
      (⟨space, .mmap hugepageBytes true, .ok addr⟩ ::
        [⟨space₁, .makeDefault, some 0⟩, ⟨space₁, .write addr 0, ()⟩])
      (.ok (some ⟨addr, 1, hugepageBytes⟩)) space₁ := by
    have hlen : checkedLen .w64 byteType 1 = .ok 1 := by decide
    have hround : alignUp .w64 1 hugepageBytes = some hugepageBytes := by decide
    exact runs_new_of_init .w64 (by decide) hlen hround hmap hone haddr hinit
  exact hnew.bind hdrop

def onePage (k addr : ℕ) : AddressSpace :=
  AddressSpace.fill (fun _ => none) addr (roundUp hugepageBytes (2 ^ k)) (some .huge)

theorem munmap_onePage : (onePage 21 (2 ^ 21)).munmap (hugeHost 21) (2 ^ 21) hugepageBytes =
    some ((onePage 21 (2 ^ 21)).fill (2 ^ 21) hugepageBytes none) := by
  have hstart : onePage 21 (2 ^ 21) (2 ^ 21) = some .huge := by decide
  rw [AddressSpace.munmap, hstart]
  exact if_pos (by decide)

/-- On a host with 2 MiB huge pages the byte's page is released. -/
theorem allocateAndDrop_released_iff_byte :
    ∃ tr space', (memEnv (hugeHost 21) UInt8).Runs (allocateAndDrop .w64 byteType 1) (fun _ => none) tr
        (.ok ()) space' ∧ (∃ len addr, Obtains tr len addr) ∧ Released (hugeHost 21) tr space' := by
  have hrun := runs_allocateAndDrop_byte 21 (2 ^ 21) (onePage 21 (2 ^ 21)) _ (.ok ()) (by decide)
    ⟨by decide, by decide, fun _ _ _ => rfl, rfl⟩ munmap_onePage
  refine ⟨_, _, hrun, ⟨hugepageBytes, 2 ^ 21, _, .head _⟩, ?_⟩
  refine (allocateAndDrop_released_iff (hugeHost 21) byteType UInt8 1 _ _ _ _ hrun).mpr fun _ => ⟨?_, ?_⟩
  · decide
  · rintro ⟨s, addr, hmem⟩
    simp at hmem

/-- On a host with 1 GiB huge pages the release of 2 MiB fails, and the page stays mapped. -/
theorem not_allocateAndDrop_released :
    ¬ ∀ (host : Host) (elem : ElemType) (T : Type) (count : ℕ) (space space' : AddressSpace)
      (tr : List (MemCall T)) (r : Except Exit Unit),
      (memEnv host T).Runs (allocateAndDrop host.width elem count) space tr r space' →
        Released host tr space' := by
  intro hclaim
  have hstart : onePage 30 (2 ^ 30) (2 ^ 30) = some .huge := by decide
  have hunmap : (onePage 30 (2 ^ 30)).munmap (hugeHost 30) (2 ^ 30) hugepageBytes = none := by
    rw [AddressSpace.munmap, hstart]
    exact if_neg (by decide)
  have hrun := runs_allocateAndDrop_byte 30 (2 ^ 30) (onePage 30 (2 ^ 30)) _ (.error (.os 22))
    (by decide) ⟨by decide, by decide, fun _ _ _ => rfl, rfl⟩ ⟨hunmap, rfl⟩
  have hfree := hclaim _ _ _ _ _ _ _ _ hrun hugepageBytes (2 ^ 30) ⟨_, .head _⟩
  have hnone := hfree (2 ^ 30) le_rfl (by decide)
  revert hnone
  decide

end KernelKit
