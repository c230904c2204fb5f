import Mathlib.Data.List.Basic

/-!
# Decoders that read a prefix of their input

A decoder looks at a buffer and either returns a value with the unread rest, or says how much
more it needs in which context, or rejects the buffer. `take`, `check` and `bind` build the
sequential decoders; `Resumable` says that an outcome survives appending more input, and
`Inverts` that the decoder accepts exactly what an encoder writes. Both are closed under the
combinators, so a format gets them from the shape of its decoder.
-/

namespace Decoding

variable {σ κ ε α β : Type*}

/-- What a decoder says about a buffer of symbols `σ`. -/
inductive Outcome (σ κ ε α : Type*)
  | done (value : α) (rest : List σ)
  | short (context : κ) (needed remaining : ℕ)
  | reject (error : ε)

abbrev Decoder (σ κ ε α : Type*) := List σ → Outcome σ κ ε α

def take (n : ℕ) (context : κ) : Decoder σ κ ε (List σ) := fun data =>
  if data.length < n then .short context n data.length
  else .done (data.take n) (data.drop n)

def check (verdict : Except ε α) : Decoder σ κ ε α := fun data =>
  match verdict with
  | .ok value => .done value data
  | .error error => .reject error

def Decoder.bind (p : Decoder σ κ ε α) (f : α → Decoder σ κ ε β) : Decoder σ κ ε β := fun data =>
  match p data with
  | .done value rest => f value rest
  | .short context needed remaining => .short context needed remaining
  | .reject error => .reject error

/-- Some buffer makes the decoder ask for more input in this context. -/
def Reports (p : Decoder σ κ ε α) (context : κ) : Prop :=
  ∃ data needed remaining, p data = .short context needed remaining

theorem bind_done {p : Decoder σ κ ε α} {f : α → Decoder σ κ ε β} {data : List σ} {b : β}
    {rest : List σ} (h : p.bind f data = .done b rest) :
    ∃ a mid, p data = .done a mid ∧ f a mid = .done b rest := by
  cases hp : p data with
  | done a mid => exact ⟨a, mid, rfl, by simpa only [Decoder.bind, hp] using h⟩
  | short c n r => simp only [Decoder.bind, hp] at h; cases h
  | reject e => simp only [Decoder.bind, hp] at h; cases h

theorem bind_short {p : Decoder σ κ ε α} {f : α → Decoder σ κ ε β} {data : List σ} {c : κ}
    {n r : ℕ} (h : p.bind f data = .short c n r) :
    p data = .short c n r ∨ ∃ a mid, p data = .done a mid ∧ f a mid = .short c n r := by
  cases hp : p data with
  | done a mid => exact Or.inr ⟨a, mid, rfl, by simpa only [Decoder.bind, hp] using h⟩
  | short c' n' r' =>
      apply Or.inl
      simp only [Decoder.bind, hp, Outcome.short.injEq] at h
      obtain ⟨rfl, rfl, rfl⟩ := h
      rfl
  | reject e => simp only [Decoder.bind, hp] at h; cases h

theorem bind_reject {p : Decoder σ κ ε α} {f : α → Decoder σ κ ε β} {data : List σ} {e : ε}
    (h : p.bind f data = .reject e) :
    p data = .reject e ∨ ∃ a mid, p data = .done a mid ∧ f a mid = .reject e := by
  cases hp : p data with
  | done a mid => exact Or.inr ⟨a, mid, rfl, by simpa only [Decoder.bind, hp] using h⟩
  | short c n r => simp only [Decoder.bind, hp] at h; cases h
  | reject e' =>
      apply Or.inl
      simp only [Decoder.bind, hp, Outcome.reject.injEq] at h
      rw [h]

theorem bind_of_done {p : Decoder σ κ ε α} (f : α → Decoder σ κ ε β) {data mid : List σ} {a : α}
    (h : p data = .done a mid) : p.bind f data = f a mid := by
  simp only [Decoder.bind, h]

theorem take_done {n : ℕ} {c : κ} {data value rest : List σ}
    (h : take (ε := ε) n c data = .done value rest) : value.length = n ∧ value ++ rest = data := by
  unfold take at h
  split_ifs at h with hn
  simp only [Outcome.done.injEq] at h
  obtain ⟨rfl, rfl⟩ := h
  exact ⟨by simp only [List.length_take]; omega, List.take_append_drop n data⟩

theorem take_append (c : κ) (value rest : List σ) :
    take (ε := ε) value.length c (value ++ rest) = .done value rest := by
  simp [take]

theorem take_short {n : ℕ} {c c' : κ} {data : List σ} {n' r : ℕ}
    (h : take (ε := ε) n c data = .short c' n' r) :
    c' = c ∧ n' = n ∧ r = data.length ∧ data.length < n := by
  unfold take at h
  split_ifs at h with hn
  simp only [Outcome.short.injEq] at h
  exact ⟨h.1.symm, h.2.1.symm, h.2.2.symm, hn⟩

theorem take_of_short (n : ℕ) (c : κ) {data : List σ} (h : data.length < n) :
    take (ε := ε) n c data = .short c n data.length := by
  rw [take, if_pos h]

theorem take_ne_reject {n : ℕ} {c : κ} {data : List σ} {e : ε} :
    take n c data ≠ .reject e := by
  unfold take
  split_ifs <;> simp

theorem check_short {v : Except ε α} {data : List σ} {c : κ} {n r : ℕ} :
    check v data ≠ .short c n r := by
  cases v <;> simp [check]

theorem reports_take {n : ℕ} {c c' : κ} (h : Reports (take (σ := σ) (ε := ε) n c) c') : c' = c := by
  obtain ⟨data, needed, remaining, hd⟩ := h
  exact (take_short hd).1

theorem not_reports_check (v : Except ε α) (c : κ) : ¬ Reports (check (σ := σ) v) c := by
  rintro ⟨data, needed, remaining, hd⟩
  exact check_short hd

theorem reports_bind {p : Decoder σ κ ε α} {f : α → Decoder σ κ ε β} {c : κ}
    (h : Reports (p.bind f) c) : Reports p c ∨ ∃ a, Reports (f a) c := by
  obtain ⟨data, needed, remaining, hd⟩ := h
  rcases bind_short hd with hp | ⟨a, mid, _, hf⟩
  · exact Or.inl ⟨_, _, _, hp⟩
  · exact Or.inr ⟨a, _, _, _, hf⟩

/-- Appending input changes an outcome only as far as it supplies what was missing. -/
structure Resumable (p : Decoder σ κ ε α) : Prop where
  done : ∀ {data value rest} (more : List σ), p data = .done value rest →
    p (data ++ more) = .done value (rest ++ more)
  lacking : ∀ {data c needed remaining}, p data = .short c needed remaining → remaining < needed
  short : ∀ {data c needed remaining} (more : List σ), p data = .short c needed remaining →
    more.length < needed - remaining →
    p (data ++ more) = .short c needed (remaining + more.length)
  enough : ∀ {data c needed remaining} (more : List σ), p data = .short c needed remaining →
    needed - remaining ≤ more.length → ∀ n r, p (data ++ more) ≠ .short c n r
  reject : ∀ {data e} (more : List σ), p data = .reject e → p (data ++ more) = .reject e

theorem take_resumable (n : ℕ) (c : κ) : Resumable (take (σ := σ) (ε := ε) n c) where
  done more h := by
    obtain ⟨hlen, rfl⟩ := take_done h
    rw [List.append_assoc, ← hlen, take_append]
  lacking h := by
    obtain ⟨_, rfl, rfl, hlt⟩ := take_short h
    exact hlt
  short more h hlt := by
    obtain ⟨rfl, rfl, rfl, _⟩ := take_short h
    rw [← List.length_append, take_of_short]
    rw [List.length_append]
    omega
  enough more h hle n' r' h' := by
    obtain ⟨_, rfl, rfl, hlt⟩ := take_short h
    obtain ⟨_, _, _, hlt'⟩ := take_short h'
    rw [List.length_append] at hlt'
    omega
  reject more h := (take_ne_reject h).elim

theorem check_resumable (v : Except ε α) : Resumable (check (σ := σ) (κ := κ) v) where
  done more h := by
    cases v with
    | ok a =>
        simp only [check, Outcome.done.injEq] at h ⊢
        exact ⟨h.1, by rw [h.2]⟩
    | error e => cases h
  lacking h := (check_short h).elim
  short _ h := (check_short h).elim
  enough _ h := (check_short h).elim
  reject more h := by
    cases v with
    | ok a => cases h
    | error e => exact h

/-- Sequencing keeps resumability as long as the second decoder never asks in a context of the
first one: only then does a context name the place where input ran out. -/
theorem Resumable.bind {p : Decoder σ κ ε α} {f : α → Decoder σ κ ε β} (hp : Resumable p)
    (hf : ∀ a, Resumable (f a)) (hsep : ∀ c, Reports p c → ∀ a, ¬ Reports (f a) c) :
    Resumable (p.bind f) where
  done more h := by
    obtain ⟨a, mid, ha, hb⟩ := bind_done h
    rw [bind_of_done f (hp.done more ha)]
    exact (hf a).done more hb
  lacking h := by
    rcases bind_short h with ha | ⟨a, mid, _, hb⟩
    · exact hp.lacking ha
    · exact (hf a).lacking hb
  short more h hlt := by
    rcases bind_short h with ha | ⟨a, mid, ha, hb⟩
    · simp only [Decoder.bind, hp.short more ha hlt]
    · rw [bind_of_done f (hp.done more ha)]
      exact (hf a).short more hb hlt
  enough more h hle n r h' := by
    rcases bind_short h with ha | ⟨a, mid, ha, hb⟩
    · rcases bind_short h' with ha' | ⟨a', mid', _, hb'⟩
      · exact hp.enough more ha hle n r ha'
      · exact hsep _ ⟨_, _, _, ha⟩ a' ⟨_, _, _, hb'⟩
    · rw [bind_of_done f (hp.done more ha)] at h'
      exact (hf a).enough more hb hle n r h'
  reject more h := by
    rcases bind_reject h with ha | ⟨a, mid, ha, hb⟩
    · simp only [Decoder.bind, hp.reject more ha]
    · rw [bind_of_done f (hp.done more ha)]
      exact (hf a).reject more hb

/-- The decoder accepts exactly what `encode` writes for a `valid` value. -/
structure Inverts (p : Decoder σ κ ε α) (encode : α → List σ) (valid : α → Prop) : Prop where
  readWrite : ∀ {value} (rest : List σ), valid value → p (encode value ++ rest) = .done value rest
  writeRead : ∀ {data value rest}, p data = .done value rest →
    valid value ∧ encode value ++ rest = data

theorem take_inverts (n : ℕ) (c : κ) :
    Inverts (take (σ := σ) (ε := ε) n c) id (fun value => value.length = n) where
  readWrite rest h := by
    subst h
    exact take_append c _ rest
  writeRead h := take_done h

theorem check_inverts {v : Except ε α} {valid : α → Prop} (h : ∀ a, v = .ok a ↔ valid a) :
    Inverts (check (σ := σ) (κ := κ) v) (fun _ => []) valid where
  readWrite rest ha := by simp only [check, (h _).mpr ha, List.nil_append]
  writeRead hd := by
    cases v with
    | ok a =>
        simp only [check, Outcome.done.injEq] at hd
        obtain ⟨rfl, rfl⟩ := hd
        exact ⟨(h a).mp rfl, rfl⟩
    | error e => cases hd

theorem Inverts.congr {p : Decoder σ κ ε α} {enc enc' : α → List σ} {valid valid' : α → Prop}
    (hp : Inverts p enc valid) (hvalid : ∀ a, valid' a ↔ valid a)
    (henc : ∀ a, valid a → enc' a = enc a) : Inverts p enc' valid' where
  readWrite rest ha := by
    have hv := (hvalid _).mp ha
    rw [henc _ hv]
    exact hp.readWrite rest hv
  writeRead h := by
    obtain ⟨hv, hd⟩ := hp.writeRead h
    exact ⟨(hvalid _).mpr hv, by rw [henc _ hv, hd]⟩

theorem Inverts.bind {p : Decoder σ κ ε α} {f : α → Decoder σ κ ε β} {encA : α → List σ}
    {encB : β → List σ} {P : α → Prop} {Q : β → Prop} (key : β → α)
    (hp : Inverts p encA P)
    (hf : ∀ a, P a → Inverts (f a) encB (fun b => Q b ∧ key b = a)) :
    Inverts (p.bind f) (fun b => encA (key b) ++ encB b)
      (fun b => P (key b) ∧ Q b) where
  readWrite {b} rest hb := by
    rw [List.append_assoc, bind_of_done f (hp.readWrite _ hb.1)]
    exact (hf _ hb.1).readWrite rest ⟨hb.2, rfl⟩
  writeRead h := by
    obtain ⟨a, mid, ha, hb⟩ := bind_done h
    obtain ⟨hva, rfl⟩ := hp.writeRead ha
    obtain ⟨⟨hvb, rfl⟩, rfl⟩ := (hf a hva).writeRead hb
    exact ⟨⟨hva, hvb⟩, List.append_assoc _ _ _⟩

/-- An encoding that was cut is found short, and no more is asked for than was cut. -/
theorem Inverts.short_of_cut {p : Decoder σ κ ε α} {encode : α → List σ} {valid : α → Prop}
    (hp : Inverts p encode valid) (hresume : Resumable p) {value : α} {data more : List σ}
    (hvalid : valid value) (hcut : data ++ more = encode value) (hmore : more ≠ []) :
    ∃ context needed remaining, p data = .short context needed remaining ∧ remaining < needed ∧
      needed - remaining ≤ more.length := by
  have hwhole : p (data ++ more) = .done value [] := by
    rw [hcut, ← List.append_nil (encode value)]
    exact hp.readWrite [] hvalid
  cases hdata : p data with
  | done value' rest =>
      rw [hresume.done more hdata] at hwhole
      cases hwhole' : rest ++ more with
      | nil => exact absurd (List.append_eq_nil_iff.mp hwhole').2 hmore
      | cons _ _ =>
          rw [hwhole'] at hwhole
          cases hwhole
  | short context needed remaining =>
      refine ⟨context, needed, remaining, rfl, hresume.lacking hdata, ?_⟩
      by_contra hlt
      rw [hresume.short more hdata (Nat.lt_of_not_le hlt)] at hwhole
      cases hwhole
  | reject error =>
      rw [hresume.reject more hdata] at hwhole
      cases hwhole

def Outcome.toExcept (eof : κ → ℕ → ℕ → ε) : Outcome σ κ ε α → Except ε (α × List σ)
  | .done value rest => .ok (value, rest)
  | .short context needed remaining => .error (eof context needed remaining)
  | .reject error => .error error

end Decoding
