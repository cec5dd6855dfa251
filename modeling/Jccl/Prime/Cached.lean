/-
# `Jccl.Prime.Cached` — when the cache of primes can be trusted

The second loop of `isprime_cached` begins at the last cached prime, so a
prime below it that is not cached is never tried: the cache may have gaps, as
`isprime_cached(7)` on the empty cache shows, which caches 2, 3 and 7 only.
`Decides` says that a number is not fooled by the gaps, and `Testable` that a
call meets only such numbers.  Then its answer is right, and it adds nothing
but primes; a prime is recognised in any case.
-/
import Jccl.Prime.Defs

namespace Jccl

/-- The last cached prime; 2, if there is none yet. -/
def lastPrime (primes : List Nat) : Nat := primes.getLastD 2

/-- The cache is in order. -/
structure Ordered (primes : List Nat) : Prop where
  pairwise : primes.Pairwise (· < ·)
  two_le : ∀ p ∈ primes, 2 ≤ p

/-- Some prime factor is tried when the number is tested: a cached one, or
one that is not below the last cached prime. -/
def Finds (primes : List Nat) (m : Nat) : Prop :=
  ∃ q, q.Prime ∧ q ∣ m ∧ q ≤ m.sqrt + 1 ∧ (q ∈ primes ∨ lastPrime primes ≤ q)

/-- The gaps in the cache do not matter to the number. -/
def Decides (primes : List Nat) (m : Nat) : Prop := m.Prime ∨ Finds primes m

/-- The gaps do not matter to the number that is tested, nor, if no cached
prime divides it, to those that the second loop tests until one divides it. -/
def Testable (primes : List Nat) (n : Nat) : Prop :=
  n < 2 ∨ Decides primes n ∧
    ((∃ q ∈ primes, q ≤ n.sqrt + 1 ∧ q ∣ n) ∨
      ∀ i, lastPrime primes < i → i ≤ n.sqrt + 1 →
        (∀ j, lastPrime primes < j → j < i → j.Prime → ¬ j ∣ n) → Decides primes i)

/-! ## The cache -/

section Cache

variable {primes : List Nat}

theorem lastPrime_concat (primes : List Nat) (n : Nat) : lastPrime (primes ++ [n]) = n :=
  List.getLastD_concat

theorem lastPrime_mem (h : primes ≠ []) : lastPrime primes ∈ primes := by
  obtain rfl | ⟨init, p, rfl⟩ := primes.eq_nil_or_concat'
  · exact absurd rfl h
  · rw [lastPrime_concat]
    exact List.mem_append_right _ (List.mem_singleton_self p)

theorem readAt_last (h : primes ≠ []) :
    readAt primes (primes.length - 1) = .ok (lastPrime primes) := by
  obtain rfl | ⟨init, p, rfl⟩ := primes.eq_nil_or_concat'
  · exact absurd rfl h
  · rw [lastPrime_concat]
    exact readAt_append (by simp)

theorem Ordered.two_le_last (h : Ordered primes) : 2 ≤ lastPrime primes := by
  by_cases hne : primes = []
  · subst hne
    exact le_rfl
  · exact h.two_le _ (lastPrime_mem hne)

theorem Ordered.le_last (h : Ordered primes) {p : Nat} (hp : p ∈ primes) : p ≤ lastPrime primes := by
  obtain rfl | ⟨init, l, rfl⟩ := primes.eq_nil_or_concat'
  · exact absurd hp List.not_mem_nil
  · rw [lastPrime_concat]
    rcases List.mem_append.mp hp with hp | hp
    · exact ((List.pairwise_append.mp h.pairwise).2.2 p hp l (List.mem_singleton_self l)).le
    · exact (List.mem_singleton.mp hp).le

theorem Ordered.concat (h : Ordered primes) {n : Nat} (hn : lastPrime primes < n) :
    Ordered (primes ++ [n]) where
  pairwise := List.pairwise_append.mpr ⟨h.pairwise, List.pairwise_singleton _ _, fun p hp m hm => by
    rw [List.mem_singleton.mp hm]
    exact (h.le_last hp).trans_lt hn⟩
  two_le p hp := by
    rcases List.mem_append.mp hp with hp | hp
    · exact h.two_le p hp
    · rw [List.mem_singleton.mp hp]
      exact h.two_le_last.trans hn.le

theorem seeded_ne_nil (primes : List Nat) : seeded primes ≠ [] := by
  cases primes <;> exact List.cons_ne_nil _ _

theorem lastPrime_seeded (primes : List Nat) : lastPrime (seeded primes) = lastPrime primes := by
  cases primes <;> rfl

theorem Ordered.seeded (h : Ordered primes) : Ordered (seeded primes) := by
  cases primes with
  | nil => exact ⟨List.pairwise_singleton _ _, fun p hp => (List.mem_singleton.mp hp).ge⟩
  | cons p primes => exact h

end Cache

/-! ## Trial division -/

section Division

theorem modulo_pos {n d : Nat} (h : 0 < d) : modulo n d = .ok (n % d) := if_neg (Nat.ne_of_gt h)

theorem sqrt_succ_lt {n : Nat} (h : 3 ≤ n) : n.sqrt + 1 < n := by
  have hsqrt : n.sqrt < n - 1 := Nat.sqrt_lt'.mpr <| by
    obtain ⟨k, rfl⟩ := Nat.exists_eq_add_of_le h
    have hpred : 3 + k - 1 = k + 2 := by omega
    rw [hpred]
    nlinarith
  omega

/-- A number that is not prime has a prime factor up to its square root. -/
theorem exists_factor {n : Nat} (h : 2 ≤ n) (hn : ¬ n.Prime) : ∃ q, q.Prime ∧ q ∣ n ∧ q ≤ n.sqrt :=
  ⟨n.minFac, Nat.minFac_prime (by omega), n.minFac_dvd,
    Nat.le_sqrt'.mpr (Nat.minFac_sq_le_self (by omega) hn)⟩

theorem isprimeLoop_ok {n fuel i : Nat} (hi : 2 ≤ i) (hfuel : n.sqrt + 1 < fuel + i) (hpos : 0 < fuel)
    (hn : 2 ≤ n) (hno : ∀ q, q.Prime → q < i → ¬ q ∣ n) :
    isprimeLoop n n.sqrt fuel i = .ok (if n.Prime then 1 else 0) := by
  induction fuel generalizing i with
  | zero => exact absurd hpos (lt_irrefl 0)
  | succ fuel ih =>
      rw [isprimeLoop]
      by_cases hle : i ≤ n.sqrt
      · rw [if_pos hle, modulo_pos (by omega), Outcome.ok_bind]
        by_cases hdvd : n % i = 0
        · have hlt : i < n := hle.trans_lt (Nat.sqrt_lt_self hn)
          have hprime : ¬ n.Prime := Nat.not_prime_of_dvd_of_lt (Nat.dvd_of_mod_eq_zero hdvd) hi hlt
          rw [if_pos hdvd, if_neg hprime]
          rfl
        · rw [if_neg hdvd]
          refine ih (by omega) (by omega) (by omega) fun q hq hlt => ?_
          rcases Nat.lt_succ_iff_lt_or_eq.mp hlt with hlt | rfl
          · exact hno q hq hlt
          · exact fun h => hdvd (Nat.mod_eq_zero_of_dvd h)
      · have hprime : n.Prime := by
          by_contra hprime
          obtain ⟨q, hq, hdvd, hsqrt⟩ := exists_factor hn hprime
          exact hno q hq (by omega) hdvd
        rw [if_neg hle, if_pos hprime]
        rfl

/-- The test without the cache is right. -/
theorem isprime_ok (n : Nat) : isprime n = .ok (if n.Prime then 1 else 0) := by
  rw [isprime]
  by_cases hn : n < 2
  · rw [if_pos hn, if_neg fun h => by have := h.two_le; omega]
  · rw [if_neg hn]
    refine isprimeLoop_ok le_rfl (by omega) (by omega) (by omega) fun q hq hlt => ?_
    exact absurd hq.two_le (by omega)

end Division

/-! ## What one call leaves -/

/-- What a call does to the cache, and that it recognises primes. -/
structure Tests (n : Nat) (primes : List Nat) (answer : Int) (primes' : List Nat) : Prop where
  bool : answer = 0 ∨ answer = 1
  ordered : Ordered primes'
  kept : ∃ new, primes' = primes ++ new ∧ ∀ p ∈ new, p ≤ n
  full : NPRIME ≤ primes.length → primes' = primes
  ofPrime : n.Prime → answer = 1
  cached : answer = 1 → lastPrime primes < n →
    n ∈ primes' ∨ NPRIME ≤ primes'.length ∧ lastPrime primes' < n
  sound : (∀ p ∈ primes, p.Prime) → Testable primes n →
    (answer = 1 → n.Prime) ∧ ∀ p ∈ primes', p.Prime

/-- What the second loop has left of the cache when it has come to `i`. -/
structure Looped (sqrtn : Nat) (primes : List Nat) (i : Nat) (primes' : List Nat) : Prop where
  ordered : Ordered primes'
  kept : ∃ new, primes' = primes ++ new ∧ ∀ p ∈ new, p < i ∧ p ≤ sqrtn
  full : NPRIME ≤ primes.length → primes' = primes
  sound : (∀ p ∈ primes, p.Prime) → (∀ j, lastPrime primes < j → j < i → Decides primes j) →
    (∀ p ∈ primes', p.Prime) ∧ ∀ q, q.Prime → lastPrime primes < q → q < i →
      q ∈ primes' ∨ NPRIME ≤ primes'.length ∧ lastPrime primes' < q

/-- The first loop returns at a cached divisor, if there is one. -/
theorem cachedFactor_ok {primes : List Nat} (h : Ordered primes) (n sqrtn : Nat) :
    (∃ p ∈ primes, p ≤ sqrtn ∧ p ∣ n ∧ cachedFactor n sqrtn primes = .ok (some p)) ∨
      (∀ p ∈ primes, p ≤ sqrtn → ¬ p ∣ n) ∧ cachedFactor n sqrtn primes = .ok none := by
  obtain ⟨hpairwise, htwo⟩ := h
  induction primes with
  | nil => exact .inr ⟨fun p hp => absurd hp List.not_mem_nil, rfl⟩
  | cons p primes ih =>
      rw [cachedFactor]
      by_cases hle : p ≤ sqrtn
      · rw [if_pos hle, modulo_pos (zero_lt_two.trans_le (htwo p List.mem_cons_self)), Outcome.ok_bind]
        by_cases hdvd : n % p = 0
        · rw [if_pos hdvd]
          exact .inl ⟨p, List.mem_cons_self, hle, Nat.dvd_of_mod_eq_zero hdvd, rfl⟩
        · rw [if_neg hdvd]
          rcases ih hpairwise.of_cons fun q hq => htwo q (List.mem_cons_of_mem _ hq) with
            ⟨q, hq, hfound⟩ | ⟨hnone, hrun⟩
          · exact .inl ⟨q, List.mem_cons_of_mem _ hq, hfound⟩
          · refine .inr ⟨fun q hq hle hq' => ?_, hrun⟩
            rcases List.mem_cons.mp hq with rfl | hq
            · exact hdvd (Nat.mod_eq_zero_of_dvd hq')
            · exact hnone q hq hle hq'
      · rw [if_neg hle]
        refine .inr ⟨fun q hq hq' => ?_, rfl⟩
        rcases List.mem_cons.mp hq with rfl | hq
        · exact absurd hq' hle
        · exact absurd (((List.pairwise_cons.mp hpairwise).1 q hq).le.trans hq') hle

/-! ## The second loop -/

section Loop

variable {sqrtn i : Nat} {primes primes' : List Nat}

theorem sqrt_succ_le {n : Nat} (h : 2 ≤ n) : n.sqrt + 1 ≤ n := Nat.sqrt_lt_self h

theorem looped_start (h : Ordered primes) : Looped sqrtn primes (lastPrime primes) primes where
  ordered := h
  kept := ⟨[], (List.append_nil _).symm, fun _ hp => absurd hp List.not_mem_nil⟩
  full _ := rfl
  sound hprimes _ := ⟨hprimes, fun _ _ hq hq' => absurd hq' (not_lt.mpr hq.le)⟩

theorem Looped.mem (h : Looped sqrtn primes i primes') {p : Nat} (hp : p ∈ primes) : p ∈ primes' := by
  obtain ⟨new, rfl, -⟩ := h.kept
  exact List.mem_append_left _ hp

theorem Looped.last_lt (h : Looped sqrtn primes i primes') (hordered : Ordered primes)
    (hne : primes ≠ []) {n : Nat} (hlast : lastPrime primes < n) (hn : i ≤ n ∨ sqrtn < n) :
    lastPrime primes' < n := by
  have hmem : lastPrime primes' ∈ primes' :=
    lastPrime_mem (List.ne_nil_of_mem (h.mem (lastPrime_mem hne)))
  obtain ⟨new, rfl, hnew⟩ := h.kept
  rcases List.mem_append.mp hmem with hold | hnew'
  · exact (hordered.le_last hold).trans_lt hlast
  · exact hn.elim (fun hn => (hnew _ hnew').1.trans_le hn) fun hn => (hnew _ hnew').2.trans_lt hn

/-- No gap has come about above the last cached prime, so the loop keeps on
meeting numbers that the gaps do not matter to. -/
theorem Looped.testable (h : Looped sqrtn primes i primes') (hordered : Ordered primes)
    (hne : primes ≠ []) (hprimes : ∀ p ∈ primes, p.Prime) (hi : lastPrime primes ≤ i)
    (hdecides : ∀ j, lastPrime primes < j → j ≤ i → Decides primes j) : Testable primes' i := by
  have htwo := hordered.two_le_last
  have hlast := hprimes _ (lastPrime_mem hne)
  obtain ⟨-, hnogap⟩ := h.sound hprimes fun j hj hji => hdecides j hj hji.le
  have htransfer : ∀ m, lastPrime primes ≤ m → m ≤ i → Decides primes' m := by
    intro m hm hmi
    rcases hm.eq_or_lt with rfl | hm
    · exact .inl hlast
    · rcases em m.Prime with hprime | hprime
      · exact .inl hprime
      · obtain ⟨q, hq, hdvd, hsqrt, hcase⟩ := (hdecides m hm hmi).resolve_left hprime
        refine .inr ⟨q, hq, hdvd, hsqrt, ?_⟩
        rcases hcase with hmem | hle
        · exact .inl (h.mem hmem)
        · rcases hle.eq_or_lt with rfl | hlt
          · exact .inl (h.mem (lastPrime_mem hne))
          · have hqm : q < m := lt_of_le_of_ne (Nat.le_of_dvd (by omega) hdvd) fun heq =>
              hprime (heq ▸ hq)
            exact (hnogap q hq hlt (hqm.trans_le hmi)).imp_right fun hfull => hfull.2.le
  have hmono : lastPrime primes ≤ lastPrime primes' := h.ordered.le_last (h.mem (lastPrime_mem hne))
  refine .inr ⟨htransfer i hi le_rfl, .inr fun j hj hjsqrt _ => ?_⟩
  exact htransfer j (hmono.trans hj.le) (hjsqrt.trans (sqrt_succ_le (htwo.trans hi)))

theorem Looped.step {answer : Int} {primes'' : List Nat} (h : Looped sqrtn primes i primes')
    (hordered : Ordered primes) (hne : primes ≠ []) (hi : lastPrime primes ≤ i) (hle : i ≤ sqrtn)
    (ht : Tests i primes' answer primes'') : Looped sqrtn primes (i + 1) primes'' where
  ordered := ht.ordered
  kept := by
    obtain ⟨new, rfl, hnew⟩ := h.kept
    obtain ⟨new', rfl, hnew'⟩ := ht.kept
    refine ⟨new ++ new', List.append_assoc _ _ _, fun p hp => ?_⟩
    rcases List.mem_append.mp hp with hp | hp
    · exact ⟨(hnew p hp).1.trans (Nat.lt_succ_self i), (hnew p hp).2⟩
    · exact ⟨Nat.lt_succ_of_le (hnew' p hp), (hnew' p hp).trans hle⟩
  full hfull := by
    have hsame := h.full hfull
    subst hsame
    exact ht.full hfull
  sound hprimes hdecides := by
    have hbefore := h.sound hprimes fun j hj hji => hdecides j hj (hji.trans (Nat.lt_succ_self i))
    have hafter := ht.sound hbefore.1
      (h.testable hordered hne hprimes hi fun j hj hji => hdecides j hj (Nat.lt_succ_of_le hji))
    refine ⟨hafter.2, fun q hq hlast hqi => ?_⟩
    rcases (Nat.le_of_lt_succ hqi).eq_or_lt with rfl | hqi
    · exact ht.cached (ht.ofPrime hq) (h.last_lt hordered hne hlast (.inl le_rfl))
    · rcases hbefore.2 q hq hlast hqi with hmem | ⟨hfull, hlt⟩
      · obtain ⟨new', rfl, -⟩ := ht.kept
        exact .inl (List.mem_append_left _ hmem)
      · rw [ht.full hfull]
        exact .inr ⟨hfull, hlt⟩

/-- The loop ends, at a divisor or with no prime divisor among the numbers it
has been through. -/
theorem factorLoop_ok (test : Nat → List Nat → Outcome (Int × List Nat)) (n fuel : Nat)
    (htest : ∀ i primes', lastPrime primes ≤ i → i ≤ sqrtn → Ordered primes' →
      lastPrime primes ∈ primes' →
      ∃ answer primes'', test i primes' = .ok (answer, primes'') ∧ Tests i primes' answer primes'')
    (hordered : Ordered primes) (hne : primes ≠ []) (hfuel : sqrtn + 1 < fuel + i) (hpos : 0 < fuel)
    (hi : lastPrime primes ≤ i) (h : Looped sqrtn primes i primes')
    (hno : ∀ j, lastPrime primes ≤ j → j < i → j.Prime → ¬ j ∣ n) :
    ∃ divided primes'' k, factorLoop test n sqrtn fuel i primes' = .ok (divided, primes'') ∧
      Looped sqrtn primes k primes'' ∧ k ≤ max i (sqrtn + 1) ∧
      (∀ j, lastPrime primes ≤ j → j + 1 < k → j.Prime → ¬ j ∣ n) ∧
      (divided = true ∧ (∃ j, lastPrime primes ≤ j ∧ j ≤ sqrtn ∧ j ∣ n) ∨
        divided = false ∧ ∀ j, lastPrime primes ≤ j → j ≤ sqrtn → j.Prime → ¬ j ∣ n) := by
  induction fuel generalizing i primes' with
  | zero => exact absurd hpos (lt_irrefl 0)
  | succ fuel ih =>
      rw [factorLoop]
      by_cases hle : i ≤ sqrtn
      · obtain ⟨answer, primes'', hrun, ht⟩ :=
          htest i primes' hi hle h.ordered (h.mem (lastPrime_mem hne))
        have hstep := h.step hordered hne hi hle ht
        have hnext : (∀ j, lastPrime primes ≤ j → j < i + 1 → j.Prime → ¬ j ∣ n) → _ :=
          ih (i := i + 1) (by omega) (by omega) (by omega) hstep
        rw [if_pos hle, hrun, Outcome.ok_bind]
        dsimp only
        by_cases hzero : answer = 0
        · rw [if_neg (not_not.mpr hzero)]
          obtain ⟨divided, primes₁, k, hloop, hlooped, hk, hrest⟩ := hnext fun j hj hji hprime => by
            rcases (Nat.le_of_lt_succ hji).eq_or_lt with rfl | hji
            · have := ht.ofPrime hprime
              omega
            · exact hno j hj hji hprime
          exact ⟨divided, primes₁, k, hloop, hlooped, by omega, hrest⟩
        · rw [if_pos hzero, modulo_pos (by have := hordered.two_le_last; omega), Outcome.ok_bind]
          by_cases hdvd : n % i = 0
          · rw [if_pos hdvd]
            refine ⟨true, primes'', i + 1, rfl, hstep, by omega, fun j hj hji => ?_, ?_⟩
            · exact hno j hj (Nat.lt_of_succ_lt_succ hji)
            · exact .inl ⟨rfl, i, hi, hle, Nat.dvd_of_mod_eq_zero hdvd⟩
          · rw [if_neg hdvd]
            obtain ⟨divided, primes₁, k, hloop, hlooped, hk, hrest⟩ := hnext fun j hj hji hprime => by
              rcases (Nat.le_of_lt_succ hji).eq_or_lt with rfl | hji
              · exact fun hj' => hdvd (Nat.mod_eq_zero_of_dvd hj')
              · exact hno j hj hji hprime
            exact ⟨divided, primes₁, k, hloop, hlooped, by omega, hrest⟩
      · rw [if_neg hle]
        refine ⟨false, primes', i, rfl, h, le_max_left _ _, fun j hj hji => hno j hj (by omega), ?_⟩
        exact .inr ⟨rfl, fun j hj hjs => hno j hj (by omega)⟩

end Loop

/-! ## One call -/

section Call

variable {n : Nat} {primes primes' : List Nat}

theorem mem_seeded {p : Nat} (hp : p ∈ primes) : p ∈ seeded primes := by
  cases primes with
  | nil => exact absurd hp List.not_mem_nil
  | cons q primes => exact hp

theorem seeded_kept (primes : List Nat) (hn : 2 ≤ n) :
    ∃ new, seeded primes = primes ++ new ∧ ∀ p ∈ new, p ≤ n := by
  cases primes with
  | nil => exact ⟨[2], rfl, fun p hp => (List.mem_singleton.mp hp).trans_le hn⟩
  | cons q primes => exact ⟨[], (List.append_nil _).symm, fun p hp => absurd hp List.not_mem_nil⟩

theorem seeded_full (h : NPRIME ≤ primes.length) : seeded primes = primes :=
  if_neg (Nat.ne_of_gt (lt_of_lt_of_le (by decide) h))

theorem seeded_prime (h : ∀ p ∈ primes, p.Prime) : ∀ p ∈ seeded primes, p.Prime := by
  cases primes with
  | nil => exact fun p hp => (List.mem_singleton.mp hp) ▸ Nat.prime_two
  | cons q primes => exact h

theorem Decides.seeded {m : Nat} (h : Decides primes m) : Decides (seeded primes) m :=
  h.imp_right fun ⟨q, hq, hdvd, hle, hcase⟩ =>
    ⟨q, hq, hdvd, hle, hcase.imp mem_seeded fun hlast => (lastPrime_seeded primes).trans_le hlast⟩

theorem tests_small (h : Ordered primes) (hn : n < 2) : Tests n primes 0 primes where
  bool := .inl rfl
  ordered := h
  kept := ⟨[], (List.append_nil _).symm, fun _ hp => absurd hp List.not_mem_nil⟩
  full _ := rfl
  ofPrime hprime := absurd hprime.two_le (not_le.mpr hn)
  cached hone := absurd hone (by decide)
  sound hprimes _ := ⟨fun hone => absurd hone (by decide), hprimes⟩

/-- The first loop returned, at a cached divisor. -/
theorem tests_factor (h : Ordered primes) (hn : 2 ≤ n) {p : Nat} (hp : p ∈ seeded primes)
    (hdvd : p ∣ n) : Tests n primes (if n = p then 1 else 0) (seeded primes) where
  bool := by split <;> decide
  ordered := h.seeded
  kept := seeded_kept primes hn
  full := seeded_full
  ofPrime hprime := by
    have hne : p ≠ 1 := Nat.ne_of_gt (h.seeded.two_le p hp)
    exact if_pos ((hprime.eq_one_or_self_of_dvd p hdvd).resolve_left hne).symm
  cached hone _ := by
    by_cases heq : n = p
    · exact .inl (heq ▸ hp)
    · rw [if_neg heq] at hone
      cases hone
  sound hprimes _ := by
    refine ⟨fun hone => ?_, seeded_prime hprimes⟩
    by_cases heq : n = p
    · exact heq ▸ seeded_prime hprimes p hp
    · rw [if_neg heq] at hone
      cases hone

/-- The second loop tests smaller numbers only. -/
theorem lt_of_looped (h : Ordered primes) (hne : primes ≠ []) (hn : 2 ≤ n)
    (hnone : ∀ p ∈ primes, p ≤ n.sqrt + 1 → ¬ p ∣ n) {i : Nat} (hi : lastPrime primes ≤ i)
    (hle : i ≤ n.sqrt + 1) : i < n := by
  rcases hn.eq_or_lt with rfl | hn
  · have hlast : lastPrime primes = 2 :=
      le_antisymm (hi.trans (hle.trans (sqrt_succ_le le_rfl))) h.two_le_last
    have hmem := lastPrime_mem hne
    rw [hlast] at hmem hi
    exact absurd dvd_rfl (hnone 2 hmem (hi.trans hle))
  · exact hle.trans_lt (sqrt_succ_lt hn)

/-- What the call has found out before the cache is extended: the numbers
that the second loop met were no trouble, if the number is not. -/
theorem Looped.sound_of_testable {k : Nat} (h : Looped (n.sqrt + 1) (seeded primes) k primes')
    (hn : 2 ≤ n) (hnone : ∀ p ∈ seeded primes, p ≤ n.sqrt + 1 → ¬ p ∣ n)
    (hk : k ≤ max (lastPrime (seeded primes)) (n.sqrt + 1 + 1))
    (hno : ∀ j, lastPrime (seeded primes) ≤ j → j + 1 < k → j.Prime → ¬ j ∣ n)
    (hprimes : ∀ p ∈ primes, p.Prime) (ht : Testable primes n) :
    Decides primes n ∧ ∀ p ∈ primes', p.Prime := by
  obtain ⟨hdecides, hmet⟩ := ht.resolve_left (not_lt.mpr hn)
  refine ⟨hdecides, (h.sound (seeded_prime hprimes) fun j hj hjk => ?_).1⟩
  rw [lastPrime_seeded] at hj hk hno
  rcases hmet with ⟨q, hq, hle, hdvd⟩ | hmet
  · exact absurd hdvd (hnone q (mem_seeded hq) hle)
  · exact (hmet j hj (by omega) fun i hi hij => hno i hi.le (by omega)).seeded

theorem Looped.kept_seeded {k : Nat} (h : Looped (n.sqrt + 1) (seeded primes) k primes')
    (hn : 2 ≤ n) : ∃ new, primes' = primes ++ new ∧ ∀ p ∈ new, p ≤ n := by
  obtain ⟨first, hfirst, hle⟩ := seeded_kept primes hn
  obtain ⟨new, rfl, hnew⟩ := h.kept
  refine ⟨first ++ new, by rw [hfirst, List.append_assoc], fun p hp => ?_⟩
  rcases List.mem_append.mp hp with hp | hp
  · exact hle p hp
  · exact (hnew p hp).2.trans (sqrt_succ_le hn)

theorem Looped.full_seeded {k : Nat} (h : Looped (n.sqrt + 1) (seeded primes) k primes')
    (hfull : NPRIME ≤ primes.length) : primes' = primes := by
  have hsame := h.full (by rwa [seeded_full hfull])
  rw [hsame, seeded_full hfull]

/-- The second loop returned, at a divisor. -/
theorem tests_divided {k j : Nat} (h : Ordered primes) (hn : 2 ≤ n)
    (hnone : ∀ p ∈ seeded primes, p ≤ n.sqrt + 1 → ¬ p ∣ n)
    (hl : Looped (n.sqrt + 1) (seeded primes) k primes')
    (hk : k ≤ max (lastPrime (seeded primes)) (n.sqrt + 1 + 1))
    (hno : ∀ j, lastPrime (seeded primes) ≤ j → j + 1 < k → j.Prime → ¬ j ∣ n)
    (hj : lastPrime (seeded primes) ≤ j) (hjs : j ≤ n.sqrt + 1) (hdvd : j ∣ n) :
    Tests n primes 0 primes' where
  bool := .inl rfl
  ordered := hl.ordered
  kept := hl.kept_seeded hn
  full hfull := hl.full_seeded hfull
  ofPrime hprime := by
    have hlt := lt_of_looped h.seeded (seeded_ne_nil primes) hn hnone hj hjs
    rcases hprime.eq_one_or_self_of_dvd j hdvd with rfl | rfl
    · exact absurd (h.seeded.two_le_last.trans hj) (by decide)
    · exact absurd hlt (lt_irrefl _)
  cached hone := absurd hone (by decide)
  sound hprimes ht :=
    ⟨fun hone => absurd hone (by decide), (hl.sound_of_testable hn hnone hk hno hprimes ht).2⟩

section Prime

variable {k : Nat} (h : Ordered primes) (hn : 2 ≤ n)
  (hnone : ∀ p ∈ seeded primes, p ≤ n.sqrt + 1 → ¬ p ∣ n)
  (hl : Looped (n.sqrt + 1) (seeded primes) k primes')
  (hk : k ≤ max (lastPrime (seeded primes)) (n.sqrt + 1 + 1))
  (hno : ∀ j, lastPrime (seeded primes) ≤ j → j + 1 < k → j.Prime → ¬ j ∣ n)
  (hall : ∀ j, lastPrime (seeded primes) ≤ j → j ≤ n.sqrt + 1 → j.Prime → ¬ j ∣ n)

include hn hnone hl hk hno hall

/-- Neither loop returned. -/
theorem prime_of_testable (hprimes : ∀ p ∈ primes, p.Prime) (ht : Testable primes n) :
    n.Prime ∧ ∀ p ∈ primes', p.Prime := by
  obtain ⟨hdecides, hprimes'⟩ := hl.sound_of_testable hn hnone hk hno hprimes ht
  refine ⟨hdecides.seeded.resolve_right ?_, hprimes'⟩
  rintro ⟨q, hq, hdvd, hsqrt, hmem | hlast⟩
  · exact hnone q hmem hsqrt hdvd
  · exact hall q hlast hsqrt hq hdvd

theorem tests_cached (hroom : primes'.length < NPRIME) (hlast : n > lastPrime primes') :
    Tests n primes 1 (primes' ++ [n]) where
  bool := .inr rfl
  ordered := hl.ordered.concat hlast
  kept := by
    obtain ⟨new, hnew, hle⟩ := hl.kept_seeded hn
    refine ⟨new ++ [n], by rw [hnew, List.append_assoc], fun p hp => ?_⟩
    rcases List.mem_append.mp hp with hp | hp
    · exact hle p hp
    · exact (List.mem_singleton.mp hp).le
  full hfull := absurd hroom (not_lt.mpr (hfull.trans_eq (by rw [hl.full_seeded hfull])))
  ofPrime _ := rfl
  cached _ _ := .inl (List.mem_append_right _ (List.mem_singleton_self n))
  sound hprimes ht := by
    obtain ⟨hprime, hprimes'⟩ := prime_of_testable hn hnone hl hk hno hall hprimes ht
    refine ⟨fun _ => hprime, fun p hp => ?_⟩
    rcases List.mem_append.mp hp with hp | hp
    · exact hprimes' p hp
    · exact List.mem_singleton.mp hp ▸ hprime

include h

theorem tests_uncached (hroom : ¬ (primes'.length < NPRIME ∧ n > lastPrime primes')) :
    Tests n primes 1 primes' where
  bool := .inr rfl
  ordered := hl.ordered
  kept := hl.kept_seeded hn
  full hfull := hl.full_seeded hfull
  ofPrime _ := rfl
  cached _ hlast := by
    rw [← lastPrime_seeded] at hlast
    have hthree : 3 ≤ n := h.seeded.two_le_last.trans_lt hlast
    have hlt := hl.last_lt h.seeded (seeded_ne_nil primes) hlast (.inr (sqrt_succ_lt hthree))
    exact .inr ⟨not_lt.mp fun hlen => hroom ⟨hlen, hlt⟩, hlt⟩
  sound hprimes ht := by
    obtain ⟨hprime, hprimes'⟩ := prime_of_testable hn hnone hl hk hno hall hprimes ht
    exact ⟨fun _ => hprime, hprimes'⟩

/-- The number is prime, as far as can be told, and is cached if there is room
and a place for it. -/
theorem tests_prime : Tests n primes 1
    (if primes'.length < NPRIME ∧ n > lastPrime primes' then primes' ++ [n] else primes') := by
  by_cases hroom : primes'.length < NPRIME ∧ n > lastPrime primes'
  · rw [if_pos hroom]
    exact tests_cached hn hnone hl hk hno hall hroom.1 hroom.2
  · rw [if_neg hroom]
    exact tests_uncached h hn hnone hl hk hno hall hroom

end Prime

end Call

/-- Any fuel above the number is enough, and the call does what `Tests` says. -/
theorem isprimeCached_ok {fuel n : Nat} (hfuel : n < fuel) (hmax : n ≤ MAXN) {primes : List Nat}
    (hordered : Ordered primes) :
    ∃ answer primes', isprimeCached fuel n primes = .ok (answer, primes') ∧
      Tests n primes answer primes' := by
  induction fuel generalizing n primes with
  | zero => exact absurd hfuel (Nat.not_lt_zero n)
  | succ fuel ih =>
      rw [isprimeCached]
      by_cases hn : n < 2
      · rw [if_pos (.inl hn)]
        exact ⟨0, primes, rfl, tests_small hordered hn⟩
      · have hn2 := not_lt.mp hn
        rw [if_neg (not_or.mpr ⟨hn, not_lt.mpr hmax⟩)]
        dsimp only
        rcases cachedFactor_ok hordered.seeded n (n.sqrt + 1) with
          ⟨p, hp, -, hdvd, hfound⟩ | ⟨hnone, hfound⟩
        · rw [hfound]
          exact ⟨_, _, rfl, tests_factor hordered hn2 hp hdvd⟩
        · rw [hfound, Outcome.ok_bind]
          dsimp only
          rw [readAt_last (seeded_ne_nil primes), Outcome.ok_bind]
          -- the calls that the loop makes are for smaller numbers
          obtain ⟨divided, primes', k, hloop, hl, hk, hno, hcase⟩ :=
            factorLoop_ok (isprimeCached fuel) n (n.sqrt + 1 + 1)
              (fun i primes' hi hle hordered' _ => by
                have hlt := lt_of_looped hordered.seeded (seeded_ne_nil primes) hn2 hnone hi hle
                exact ih (by omega) (by omega) hordered')
              hordered.seeded (seeded_ne_nil primes)
              (by have := hordered.seeded.two_le_last; omega) (by omega) le_rfl
              (looped_start hordered.seeded)
              fun j hj hj' => absurd hj (not_le.mpr hj')
          rw [hloop, Outcome.ok_bind]
          dsimp only
          rcases hcase with ⟨rfl, j, hj, hjs, hdvd⟩ | ⟨rfl, hall⟩
          · exact ⟨0, primes', rfl, tests_divided hordered hn2 hnone hl hk hno hj hjs hdvd⟩
          · have hne := List.ne_nil_of_mem (hl.mem (lastPrime_mem (seeded_ne_nil primes)))
            refine ⟨1, _, ?_, tests_prime hordered hn2 hnone hl hk hno hall⟩
            rw [if_neg Bool.false_ne_true, readAt_last hne, Outcome.ok_bind]
            split <;> rfl

/-! ## Whole histories -/

/-- The calls of a history, each with the cache that the ones before it leave. -/
def isprimeRun : List (BitVec 32) → List Nat → Outcome (List Int × List Nat)
  | [], primes => .ok ([], primes)
  | n :: ns, primes => do
      let (answer, primes) ← isprimeCached (n.toNat + 1) n.toNat primes
      let (answers, primes) ← isprimeRun ns primes
      return (answer :: answers, primes)

/-- No call of a history is fooled by the gaps that it finds in the cache. -/
def RunTestable : List (BitVec 32) → List Nat → Prop
  | [], _ => True
  | n :: ns, primes => Testable primes n.toNat ∧ ∀ answer primes',
      isprimeCached (n.toNat + 1) n.toNat primes = .ok (answer, primes') → RunTestable ns primes'

theorem isprimeRun_ok {ns : List (BitVec 32)} {primes : List Nat} (hordered : Ordered primes)
    (hprimes : ∀ p ∈ primes, p.Prime) (h : RunTestable ns primes) :
    ∃ answers primes', isprimeRun ns primes = .ok (answers, primes') ∧
      answers = ns.map (fun n => if n.toNat.Prime then 1 else 0) ∧
      Ordered primes' ∧ ∀ p ∈ primes', p.Prime := by
  induction ns generalizing primes with
  | nil => exact ⟨[], primes, rfl, rfl, hordered, hprimes⟩
  | cons n ns ih =>
      have hmax : n.toNat ≤ MAXN := Nat.le_of_lt_succ n.isLt
      obtain ⟨answer, primes', hrun, ht⟩ := isprimeCached_ok (Nat.lt_succ_self _) hmax hordered
      obtain ⟨hsound, hprimes'⟩ := ht.sound hprimes h.1
      obtain ⟨answers, primes'', hruns, hanswers, hrest⟩ :=
        ih ht.ordered hprimes' (h.2 answer primes' hrun)
      have hanswer : answer = if n.toNat.Prime then 1 else 0 := by
        by_cases hn : n.toNat.Prime
        · rw [if_pos hn, ht.ofPrime hn]
        · rw [if_neg hn]
          exact ht.bool.resolve_right fun hone => hn (hsound hone)
      refine ⟨answer :: answers, primes'', ?_, ?_, hrest⟩
      · rw [isprimeRun, hrun, Outcome.ok_bind]
        dsimp only
        rw [hruns]
        rfl
      · rw [List.map_cons, ← hanswer, hanswers]

/-- Through any history of calls that the gaps in the cache do not matter to,
every answer is right, and that of the test without the cache, and the cache
holds primes only, in order. -/
theorem isprimeCached_history (ns : List (BitVec 32)) (h : RunTestable ns []) :
    ∃ answers primes, isprimeRun ns [] = .ok (answers, primes) ∧
      answers = ns.map (fun n => if n.toNat.Prime then 1 else 0) ∧
      (∀ n ∈ ns, isprime n.toNat = .ok (if n.toNat.Prime then 1 else 0)) ∧
      primes.Pairwise (· < ·) ∧ ∀ p ∈ primes, p.Prime := by
  have hempty : Ordered [] := ⟨.nil, fun p hp => absurd hp List.not_mem_nil⟩
  obtain ⟨answers, primes, hrun, hanswers, hordered, hprimes⟩ :=
    isprimeRun_ok hempty (fun p hp => absurd hp List.not_mem_nil) h
  exact ⟨answers, primes, hrun, hanswers, fun n _ => isprime_ok n.toNat, hordered.pairwise, hprimes⟩

/-- The history that tests 3, and then 25. -/
theorem isprimeCached_history_3_25 : ∃ primes, isprimeRun [3, 25] [] = .ok ([1, 0], primes) := by
  have hfirst : isprimeCached 4 3 [] = .ok (1, [2, 3]) := by decide +kernel
  have hthree : Testable [] 3 :=
    .inr ⟨.inl Nat.prime_three, .inr fun i hi hle =>
      absurd (hi.trans_le hle) (by norm_num [lastPrime])⟩
  have hsqrt : Nat.sqrt 25 = 5 := by norm_num
  have hlater : Testable [2, 3] 25 := by
    refine .inr ⟨.inr ⟨5, by norm_num, by norm_num, by omega, .inr (by decide)⟩,
      .inr fun i hi hle _ => ?_⟩
    rw [hsqrt] at hle
    have hlast : lastPrime [2, 3] = 3 := rfl
    rw [hlast] at hi
    interval_cases i
    · exact .inr ⟨2, Nat.prime_two, by norm_num, by norm_num, .inl (by decide)⟩
    · exact .inl (by norm_num)
    · exact .inr ⟨2, Nat.prime_two, by norm_num, by norm_num, .inl (by decide)⟩
  obtain ⟨answers, primes, hrun, hanswers, -⟩ := isprimeCached_history [3, 25]
    ⟨hthree, fun answer primes' hrun => by
      have heq := hfirst.symm.trans hrun
      cases heq
      exact ⟨hlater, fun _ _ _ => trivial⟩⟩
  have h25 : ¬ Nat.Prime 25 := by norm_num
  refine ⟨primes, hrun.trans ?_⟩
  rw [hanswers]
  exact congrArg (fun answers => Except.ok (answers, primes))
    (congrArg₂ (fun a b : Int => [a, b]) (if_pos Nat.prime_three) (if_neg h25))

/-- After 7 the cache has a gap, and 25 is taken for a prime. -/
theorem isprimeCached_7_25 :
    isprimeRun [7, 25] [] = .ok ([1, 1], [2, 3, 7, 25]) ∧ ¬ Nat.Prime 25 :=
  ⟨by decide +kernel, by norm_num⟩

end Jccl
