import Leaper.Lib.Machine

namespace Lib

/-!
# Tallies

Counters that a program keeps about a growing list of records, of which it changes one at a time:
each is the sum of a number read off every record.  A tally changes by what the new record, or the
changed one, adds (`tally_append_singleton`, `tally_modify`), and a counter that every event of a
machine advances is a tally over the events (`run_tally`).
-/

variable {α β σ ε ω : Type*}

/-- The sum of a number over a list. -/
def tally (f : α → ℕ) : List α → ℕ
  | [] => 0
  | a :: l => f a + tally f l

@[simp] theorem tally_nil (f : α → ℕ) : tally f [] = 0 := rfl

@[simp] theorem tally_cons (f : α → ℕ) (a : α) (l : List α) : tally f (a :: l) = f a + tally f l :=
  rfl

/-- Tallies add up over append. -/
theorem tally_append (f : α → ℕ) (l l' : List α) : tally f (l ++ l') = tally f l + tally f l' := by
  induction l with
  | nil => exact (Nat.zero_add _).symm
  | cons a l ih => rw [List.cons_append, tally_cons, tally_cons, ih, Nat.add_assoc]

/-- One more element adds its own weight. -/
theorem tally_append_singleton (f : α → ℕ) (l : List α) (a : α) :
    tally f (l ++ [a]) = tally f l + f a := by
  rw [tally_append]
  rfl

/-- One record changes. -/
theorem tally_modify (f : α → ℕ) (g : α → α) {a : α} {l : List α} {i : ℕ} (h : l[i]? = some a) :
    tally f (l.modify i g) + f a = tally f l + f (g a) := by
  induction l generalizing i with
  | nil => exact absurd h (by simp)
  | cons b l ih =>
    cases i with
    | zero =>
      obtain rfl : b = a := by simpa using h
      rw [List.modify_zero_cons, tally_cons, tally_cons]
      omega
    | succ i =>
      have ih := ih (i := i) (by simpa using h)
      rw [List.modify_succ_cons, tally_cons, tally_cons]
      omega

/-- A number that the change of a record does not touch. -/
theorem tally_modify_of_eq {f : α → ℕ} {g : α → α} {a : α} {l : List α} {i : ℕ}
    (h : l[i]? = some a) (hf : f (g a) = f a) : tally f (l.modify i g) = tally f l := by
  have hmodify := tally_modify f g h
  omega

/-- A record that a change leaves as it is. -/
theorem modify_eq_self_of_eq {f : α → α} {a : α} {l : List α} {i : ℕ} (hl : l[i]? = some a)
    (hf : f a = a) : l.modify i f = l := by
  refine List.ext_getElem? fun j => ?_
  rw [List.getElem?_modify]
  by_cases hij : i = j
  · subst hij
    simp [hl, hf]
  · simp [hij]

/-- A tally of truth values is a count. -/
theorem tally_toNat (p : α → Bool) (l : List α) : tally (fun a => (p a).toNat) l = l.countP p := by
  induction l with
  | nil => rfl
  | cons a l ih =>
    rw [tally_cons, List.countP_cons, ih, Nat.add_comm]
    cases p a <;> rfl

/-- Weights that agree on the list give one tally. -/
theorem tally_congr {f g : α → ℕ} {l : List α} (h : ∀ a ∈ l, f a = g a) :
    tally f l = tally g l := by
  induction l with
  | nil => rfl
  | cons a l ih =>
    rw [tally_cons, tally_cons, h a List.mem_cons_self,
      ih fun b hb => h b (List.mem_cons_of_mem _ hb)]

/-- Bounds on the single numbers bound the tally. -/
theorem tally_bounds {f : α → ℕ} {lo hi : ℕ} {l : List α} (h : ∀ a ∈ l, lo ≤ f a ∧ f a ≤ hi) :
    l.length * lo ≤ tally f l ∧ tally f l ≤ l.length * hi := by
  induction l with
  | nil => simp
  | cons a l ih =>
    obtain ⟨hlo, hhi⟩ := h a List.mem_cons_self
    obtain ⟨ihlo, ihhi⟩ := ih fun b hb => h b (List.mem_cons_of_mem _ hb)
    rw [tally_cons, List.length_cons, Nat.succ_mul, Nat.succ_mul]
    omega

/-- The tally of a sum is the sum of the tallies. -/
theorem tally_add (f g : α → ℕ) (l : List α) :
    tally (fun a => f a + g a) l = tally f l + tally g l := by
  induction l with
  | nil => rfl
  | cons a l ih =>
    rw [tally_cons, tally_cons, tally_cons, ih]
    omega

/-- A count of what two tests part. -/
theorem countP_parts {p q r : α → Bool} (h : ∀ a, (q a).toNat + (r a).toNat = (p a).toNat)
    (l : List α) : l.countP q + l.countP r = l.countP p := by
  rw [← tally_toNat, ← tally_toNat, ← tally_toNat, ← tally_add]
  exact tally_congr fun a _ => h a

/-- A length is the tally of ones. -/
theorem length_eq_tally (l : List α) : l.length = tally (fun _ => 1) l := by
  induction l with
  | nil => rfl
  | cons a l ih => rw [List.length_cons, tally_cons, ih, Nat.add_comm]

/-- Filtering a list is giving weight zero to what is dropped. -/
theorem tally_filter (f : α → ℕ) (p : α → Bool) (l : List α) :
    tally f (l.filter p) = tally (fun a => if p a then f a else 0) l := by
  induction l with
  | nil => rfl
  | cons a l ih =>
    cases hp : p a
    · rw [List.filter_cons_of_neg (by simp [hp]), tally_cons, ih, hp]
      exact (Nat.zero_add _).symm
    · rw [List.filter_cons_of_pos hp, tally_cons, tally_cons, ih, hp]
      rfl

/-- A partial map gives weight zero to what it drops. -/
theorem tally_filterMap (f : β → ℕ) (g : α → Option β) (l : List α) :
    tally f (l.filterMap g) = tally (fun a => (g a).elim 0 f) l := by
  induction l with
  | nil => rfl
  | cons a l ih =>
    rw [tally_cons, ← ih]
    cases hg : g a with
    | none =>
      rw [List.filterMap_cons_none hg]
      exact (Nat.zero_add _).symm
    | some b =>
      rw [List.filterMap_cons_some hg]
      rfl

/-- Two tallies of records that correspond differ by the tally of what each pair adds. -/
theorem tally_add_zip {R : α → α → Prop} {f : α → ℕ} {g : α × α → ℕ}
    (hR : ∀ a b, R a b → f a + g (a, b) = f b) {l l' : List α} (h : List.Forall₂ R l l') :
    tally f l + tally g (l.zip l') = tally f l' := by
  induction h with
  | nil => rfl
  | cons hab _ ih =>
    rw [List.zip_cons_cons, tally_cons, tally_cons, tally_cons, ← hR _ _ hab, ← ih]
    omega

/-- Lists whose entries are related in pairs that weigh the same have one tally. -/
theorem tally_eq_of_forall₂ {R : α → α → Prop} {f : α → ℕ} (hR : ∀ a b, R a b → f a = f b)
    {l l' : List α} (h : List.Forall₂ R l l') : tally f l = tally f l' := by
  induction h with
  | nil => rfl
  | cons hab _ ih => rw [tally_cons, tally_cons, hR _ _ hab, ih]

/-- **A counter of a machine** that advances by `f e` at every event `e` is a tally over the
    word. -/
theorem run_tally {step : σ → ε → σ × ω} (count : σ → ℕ) {f : ε → ℕ}
    (hstep : ∀ s e, count (step s e).1 = count s + f e) (s : σ) (es : List ε) :
    count (run step s es) = count s + tally f es := by
  induction es generalizing s with
  | nil => rfl
  | cons e es ih =>
    rw [run_cons, ih, hstep, tally_cons, Nat.add_assoc]

end Lib
