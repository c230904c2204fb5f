import KernelKit.Memory
import Mathlib.Data.UInt

/-!
# Evicting a file range from the page cache

`evictPages` hands a range to `posix_fadvise`, for which a length of zero means everything up to the end
of the file. The kernel may drop the whole pages inside the range it is told and no others, so the
cached pages outside the range that was asked for are safe except behind an empty range.
-/

namespace KernelKit.Readahead
open Interaction

inductive Advice
  | sequential
  | dontneed
  deriving DecidableEq, Repr

inductive FadviseOp
  | posixFadvise (fd offset len : ℕ) (advice : Advice)

abbrev FadviseOp.Ans : FadviseOp → Type
  | .posixFadvise _ _ _ _ => ℕ

/-- `off_t::MAX`, where `off_t` is as wide as `c_long`. -/
def offMax (w : Width) : ℕ := 2 ^ (w.bits - 1) - 1

def offTryFrom (w : Width) (v : UInt64) : Option ℕ := if v.toNat ≤ offMax w then some v.toNat else none

def evictPages (w : Width) (fd : ℕ) (offset len : UInt64) : Prog FadviseOp FadviseOp.Ans Exit Unit :=
  match offTryFrom w offset with
  | none => throw (.system "posix_fadvise(DONTNEED)" (.custom .invalidInput "offset too large for off_t"))
  | some off =>
    match offTryFrom w len with
    | none => throw (.system "posix_fadvise(DONTNEED)" (.custom .invalidInput "len too large for off_t"))
    | some length => do
      let result ← Prog.call (FadviseOp.posixFadvise fd off length .dontneed)
      if result ≠ 0 then throw (.system "posix_fadvise(DONTNEED)" (.os result)) else pure ()

/-! ### The page cache -/

abbrev PageCache := ℕ → ℕ → Prop

def Inside (host : Host) (offset len page : ℕ) : Prop :=
  offset ≤ page * host.pageSize ∧ (page + 1) * host.pageSize ≤ offset + len

/-- What the kernel may drop: whole pages of the range, where a length of zero stands for all that
follows. -/
def MayDrop (host : Host) : FadviseOp → ℕ → ℕ → Prop
  | .posixFadvise fd offset len .dontneed, file, page =>
    file = fd ∧ if len = 0 then offset ≤ page * host.pageSize else Inside host offset len page
  | .posixFadvise _ _ _ .sequential, _, _ => False

/-- Linux: whatever the answer is, some of the pages that may be dropped are. -/
def fadviseEnv (host : Host) : Env PageCache FadviseOp FadviseOp.Ans where
  serve op cache _ cache' := (∀ file page, cache' file page → cache file page) ∧
    ∀ file page, cache file page → cache' file page ∨ MayDrop host op file page
  interfere _ _ := False

/-- From this state of the page cache the pages outside the range stay cached, and a range that does not
fit `off_t` is refused and evicts nothing. -/
def EvictsOnlyRange (host : Host) (fd : ℕ) (offset len : UInt64) (cache : PageCache) : Prop :=
  ∀ tr r cache', (fadviseEnv host).Runs (evictPages host.width fd offset len) cache tr r cache' →
    (∀ file page, cache file page →
      ¬ (file = fd ∧ Inside host offset.toNat len.toNat page) → cache' file page) ∧
    (offMax host.width < offset.toNat ∨ offMax host.width < len.toNat →
      (∃ error, r = .error (.err error)) ∧ cache' = cache)

variable {host : Host} {w : Width} {fd : ℕ} {offset len : UInt64} {cache cache' : PageCache}
  {tr : List (Call PageCache FadviseOp FadviseOp.Ans)} {r : Except Exit Unit}

theorem fadviseEnv_quiet : (fadviseEnv host).Quiet := fun _ _ => id

/-- A range that does not fit is refused without a call; any other is handed to the kernel. -/
theorem runs_evictPages (h : (fadviseEnv host).Runs (evictPages w fd offset len) cache tr r cache') :
    (offMax w < offset.toNat ∨ offMax w < len.toNat) ∧
        (∃ error, r = .error (.err error)) ∧ cache' = cache ∨
      offset.toNat ≤ offMax w ∧ len.toNat ≤ offMax w ∧ ∃ answer, (fadviseEnv host).serve
        (.posixFadvise fd offset.toNat len.toNat .dontneed) cache answer cache' := by
  unfold evictPages offTryFrom at h
  split_ifs at h with hoffset hlen hlen
  · obtain ⟨answer, cache₁, tr', hserve, hrest, rfl⟩ := fadviseEnv_quiet.runs_ask_iff.mp h
    have hcache : cache' = cache₁ := by
      dsimp only [Prog.pure_eq_ret, Prog.ret_bind] at hrest
      split_ifs at hrest
      · exact (runs_throw_iff.mp hrest).2.2
      · exact (Env.runs_ret_iff.mp hrest).2.2
    exact .inr ⟨hoffset, hlen, answer, hcache ▸ hserve⟩
  · obtain ⟨rfl, rfl, rfl⟩ := runs_throw_iff.mp h
    exact .inl ⟨.inr (not_le.mp hlen), ⟨_, rfl⟩, rfl⟩
  · obtain ⟨rfl, rfl, rfl⟩ := runs_throw_iff.mp h
    exact .inl ⟨.inl (not_le.mp hoffset), ⟨_, rfl⟩, rfl⟩
  · obtain ⟨rfl, rfl, rfl⟩ := runs_throw_iff.mp h
    exact .inl ⟨.inl (not_le.mp hoffset), ⟨_, rfl⟩, rfl⟩

theorem evictPages_runs (hoffset : offset.toNat ≤ offMax w) (hlen : len.toNat ≤ offMax w)
    (hserve : (fadviseEnv host).serve (.posixFadvise fd offset.toNat len.toNat .dontneed) cache (0 : ℕ)
      cache') :
    (fadviseEnv host).Runs (evictPages w fd offset len) cache
      [⟨cache, .posixFadvise fd offset.toNat len.toNat .dontneed, (0 : ℕ)⟩] (.ok ()) cache' := by
  unfold evictPages offTryFrom
  rw [if_pos hoffset, if_pos hlen]
  exact .ask .refl hserve (.ret () cache')

theorem not_inside_zero {start page : ℕ} (hstart : start ≤ page * host.pageSize) :
    ¬ Inside host start 0 page := by
  rintro ⟨-, hstop⟩
  have hpos := host.pageSize_pos
  rw [Nat.add_mul, Nat.one_mul] at hstop
  omega

/-- With an empty range the kernel may drop any cached page behind its start. -/
theorem not_evictsOnlyRange_zero (page : ℕ) (hoffset : offset.toNat ≤ offMax host.width)
    (hpage : cache fd page) (hstart : offset.toNat ≤ page * host.pageSize) :
    ¬ EvictsOnlyRange host fd offset 0 cache := by
  intro h
  have hserve : (fadviseEnv host).serve (.posixFadvise fd offset.toNat (0 : UInt64).toNat .dontneed)
      cache (0 : ℕ) fun file p => cache file p ∧ ¬ (file = fd ∧ p = page) := by
    refine ⟨fun _ _ => And.left, fun file p hp => ?_⟩
    by_cases hsame : file = fd ∧ p = page
    · obtain ⟨rfl, rfl⟩ := hsame
      exact .inr ⟨rfl, hstart⟩
    · exact .inl ⟨hp, hsame⟩
  obtain ⟨hkeep, -⟩ := h _ _ _ (evictPages_runs hoffset (Nat.zero_le _) hserve)
  exact (hkeep fd page hpage fun hin => not_inside_zero hstart hin.2).2 ⟨rfl, rfl⟩

/-- The cached pages outside the range are safe exactly if the range is not empty, or is refused, or no
page behind its start is cached. -/
theorem evictsOnlyRange_iff (host : Host) (fd : ℕ) (offset len : UInt64) (cache : PageCache) :
    EvictsOnlyRange host fd offset len cache ↔
      len ≠ 0 ∨ offMax host.width < offset.toNat ∨
        ∀ page, cache fd page → page * host.pageSize < offset.toNat := by
  constructor
  · intro h
    by_contra hnot
    simp only [not_or, not_forall, not_not, not_lt] at hnot
    obtain ⟨rfl, hoffset, page, hpage, hstart⟩ := hnot
    exact not_evictsOnlyRange_zero page hoffset hpage hstart h
  · intro hcond tr r cache' hrun
    rcases runs_evictPages hrun with ⟨hmisfit, herr, rfl⟩ | ⟨hoffset, hlen, answer, -, hkeep⟩
    · exact ⟨fun _ _ hpage _ => hpage, fun _ => ⟨herr, rfl⟩⟩
    refine ⟨fun file page hpage hout => ?_, fun hmisfit => by omega⟩
    rcases hkeep file page hpage with hstay | ⟨rfl, hdrop⟩
    · exact hstay
    · split_ifs at hdrop with hzero
      · rcases hcond with hne | hmisfit | hbefore
        · exact absurd (UInt64.toNat_inj.mp hzero) hne
        · omega
        · have hlt := hbefore page hpage
          omega
      · exact absurd ⟨rfl, hdrop⟩ hout

/-- An empty range at the start of a file all of whose pages are cached. -/
theorem not_evictsOnlyRange : ¬ EvictsOnlyRange (hugeHost 21) 3 0 0 fun file _ => file = 3 :=
  not_evictsOnlyRange_zero 0 (Nat.zero_le _) rfl (Nat.zero_le _)

end KernelKit.Readahead
