import Salt.State.Ephemeral

namespace Salt

/-- The least of `capacity`, `2 * capacity`, `4 * capacity`, ... whose load is at most 80%. -/
def Resized (capacity used result : ℕ) : Prop :=
  ∃ j, result = capacity * 2 ^ j ∧ used * 100 ≤ result * 80 ∧
    ∀ i < j, capacity * 2 ^ i * 80 < used * 100

variable {c c' c'' n n' : ℕ}

theorem resized_self (h : n * 100 ≤ c * 80) : Resized c n c :=
  ⟨0, by simp, h, fun i hi ↦ absurd hi (Nat.not_lt_zero i)⟩

theorem Resized.load (h : Resized c n c') : n * 100 ≤ c' * 80 := by
  obtain ⟨_, _, h, _⟩ := h
  exact h

theorem Resized.le (h : Resized c n c') : c ≤ c' := by
  obtain ⟨j, rfl, _⟩ := h
  exact Nat.le_mul_of_pos_right c (Nat.two_pow_pos j)

theorem Resized.unique (h : Resized c n c') (h' : Resized c n c'') : c' = c'' := by
  obtain ⟨j, rfl, hload, hleast⟩ := h
  obtain ⟨j', rfl, hload', hleast'⟩ := h'
  rcases Nat.lt_trichotomy j j' with hj | rfl | hj
  · have := hleast' j hj
    omega
  · rfl
  · have := hleast j' hj
    omega

/-- Growing in two steps with a growing number of entries is growing at once. -/
theorem Resized.trans (h : Resized c n c') (hn : n ≤ n') (h' : Resized c' n' c'') :
    Resized c n' c'' := by
  obtain ⟨j, rfl, -, hleast⟩ := h
  obtain ⟨j', rfl, hload', hleast'⟩ := h'
  refine ⟨j + j', by rw [Nat.pow_add, Nat.mul_assoc], hload', fun i hi ↦ ?_⟩
  by_cases hij : i < j
  · have := hleast i hij
    omega
  · have := hleast' (i - j) (by omega)
    rwa [Nat.mul_assoc c, ← Nat.pow_add, Nat.add_sub_cancel' (by omega)] at this

theorem resizeLoop_spec {fuel j : ℕ} (hj : j < fuel) (hload : n * 100 ≤ c * 2 ^ j * 80) :
    ∃ c', resizeLoop fuel c n = .ok c' ∧ Resized c n c' := by
  induction fuel generalizing c j with
  | zero => omega
  | succ fuel ih =>
    rw [resizeLoop]
    split
    · rename_i hover
      simp only [bucketResizeLoadFactorPct] at hover
      cases j with
      | zero =>
        rw [Nat.pow_zero, Nat.mul_one] at hload
        omega
      | succ j =>
        obtain ⟨c', hc', i, rfl, hl, hleast⟩ := ih (c := c * bucketResizeMultiplier) (j := j) (by omega)
          (by rwa [Nat.pow_succ', ← Nat.mul_assoc] at hload)
        refine ⟨_, hc', i + 1, by rw [Nat.pow_succ', Nat.mul_assoc], hl, fun a ha ↦ ?_⟩
        cases a with
        | zero =>
          rw [Nat.pow_zero, Nat.mul_one]
          exact hover
        | succ a =>
          have := hleast a (by omega)
          rwa [Nat.pow_succ', ← Nat.mul_assoc]
    · rename_i hok
      exact ⟨c, rfl, resized_self (not_lt.mp hok)⟩

theorem computeResizeCapacity_spec (hc : 0 < c) (n : ℕ) :
    ∃ c', computeResizeCapacity c n = .ok c' ∧ Resized c n c' := by
  have hpow : n < 2 ^ n := Nat.lt_two_pow_self
  have hle : 2 ^ (n + 1) ≤ c * 2 ^ (n + 1) := Nat.le_mul_of_pos_left _ hc
  exact resizeLoop_spec (j := n + 1) (by omega) (by omega)

theorem computeResizeCapacity_eq_iff (hc : 0 < c) :
    computeResizeCapacity c n = .ok c' ↔ Resized c n c' := by
  obtain ⟨c'', he, hr⟩ := computeResizeCapacity_spec hc n
  rw [he]
  exact ⟨fun h ↦ Except.ok.inj h ▸ hr, fun h ↦ by rw [hr.unique h]⟩

/-- A capacity that a resize computes for an overloaded bucket of at most `n` keys. -/
def Needs (n c : ℕ) : Prop :=
  ∃ capacity used, used ≤ n ∧ capacity * 80 < used * 100 ∧ computeResizeCapacity capacity used = .ok c

theorem Needs.mono (h : Needs n c) (hn : n ≤ n') : Needs n' c := by
  obtain ⟨capacity, used, hused, hover, he⟩ := h
  exact ⟨capacity, used, hused.trans hn, hover, he⟩

theorem Needs.lt (h : Needs n c) : c * 2 < n * 5 := by
  obtain ⟨capacity, used, hused, hover, he⟩ := h
  rcases Nat.eq_zero_or_pos capacity with rfl | hpos
  · have hzero : ∀ fuel, resizeLoop fuel 0 used = .error (.panic .diverges) := by
      intro fuel
      induction fuel with
      | zero => rfl
      | succ fuel ih =>
        rw [resizeLoop, if_pos (by simp only [bucketResizeLoadFactorPct]; omega), Nat.zero_mul, ih]
    rw [computeResizeCapacity, hzero] at he
    cases he
  · obtain ⟨j, rfl, -, hleast⟩ := (computeResizeCapacity_eq_iff hpos).mp he
    cases j with
    | zero => omega
    | succ j =>
      have := hleast j (by omega)
      rw [Nat.pow_succ, ← Nat.mul_assoc]
      omega

/-- The capacity assertion may fail, for a capacity that a bucket of at most `n` keys needs. -/
def Capped (A : Fault → Prop) (n : ℕ) : Prop :=
  ∀ c, bucketSlotIdMask < c → Needs n c → A (.panic (.exceedsMaxBucketCapacity c))

/-- The threshold test of `shi_upsert`, in whole slots, is the load test of the resize loop. -/
theorem load_le_iff : ¬ n > c * bucketResizeLoadFactorPct / 100 ↔ n * 100 ≤ c * 80 := by
  simp only [bucketResizeLoadFactorPct]
  omega

end Salt
