import Xv6.Agent.Signals
import Xv6.Common.Smoothing
import Xv6.Sched.Trap

/-!
# The burst estimates

What the timer trap does to the two EMAs of a process when its quantum runs out. Whatever the
numbers are, the caps bring the EMAs into range. For bursts of up to 50 ticks nothing overflows and
the caps do nothing: an update is a step of `Smoothing.smooth` towards 100 times the burst. So
bursts of one length let both EMAs settle, and then the process looks steady to the agent.
-/

namespace Xv6.Sched

open Smoothing

variable {alpha burst old : Int}

/-- An EMA after an expiry. -/
def emaNext (alpha burstLen old : Int) : Int := emaCap (emaStep alpha burstLen old)

/-- In range the update is exact: one step of smoothing. -/
theorem emaNext_eq (ha : 1 ≤ alpha ∧ alpha ≤ 90) (hb : 0 ≤ burst ∧ burst ≤ 50)
    (ho : 0 ≤ old ∧ old ≤ 5000) : emaNext alpha burst old = smooth 100 alpha (100 * burst) old := by
  have hmul : |alpha * (100 * burst - old)| ≤ 90 * 5000 := by
    rw [abs_mul]
    refine mul_le_mul ?_ ?_ (abs_nonneg _) (by omega)
    · exact abs_le.mpr ⟨by omega, by omega⟩
    · exact abs_le.mpr ⟨by omega, by omega⟩
  obtain ⟨hlo, hhi⟩ := abs_le.mp hmul
  have hstep : emaStep alpha burst old = smooth 100 alpha (100 * burst) old := by
    unfold emaStep smooth
    rw [i32_eq_self (x := burst * 100) (by omega) (by omega),
      i32_eq_self (x := burst * 100 - old) (by omega) (by omega), Int.mul_comm burst 100,
      i32_eq_self (x := alpha * (100 * burst - old)) (by omega) (by omega)]
    have hdiv := Int.natAbs_tdiv_le_natAbs (alpha * (100 * burst - old)) 100
    rw [i32_eq_self (by omega) (by omega)]
  have hbetween : 0 ≤ smooth 100 alpha (100 * burst) old ∧
      smooth 100 alpha (100 * burst) old ≤ 5000 := by
    by_cases hle : old ≤ 100 * burst
    · have h := smooth_between_of_le (D := 100) (a := alpha) (by omega) (by omega) (by omega) hle
      omega
    · have h := smooth_between_of_ge (D := 100) (a := alpha) (t := 100 * burst) (x := old)
        (by omega) (by omega) (by omega) (by omega)
      omega
  unfold emaNext emaCap
  rw [hstep, if_neg (by omega), if_neg (by omega)]

/-- An expiry brings both EMAs into range, and the variance is their distance. -/
theorem expired_range (s : SchedParams) (now : Int) (p : Proc) :
    (0 ≤ (p.expired s now).burstEmaFast ∧ (p.expired s now).burstEmaFast ≤ 5000) ∧
    (0 ≤ (p.expired s now).burstEmaSlow ∧ (p.expired s now).burstEmaSlow ≤ 5000) ∧
    (p.expired s now).burstVariance =
      |(p.expired s now).burstEmaFast - (p.expired s now).burstEmaSlow| := by
  have hfast : 0 ≤ (p.expired s now).burstEmaFast ∧ (p.expired s now).burstEmaFast ≤ 5000 :=
    emaCap_range _
  have hslow : 0 ≤ (p.expired s now).burstEmaSlow ∧ (p.expired s now).burstEmaSlow ≤ 5000 :=
    emaCap_range _
  have hvar : (p.expired s now).burstVariance =
      if i32 ((p.expired s now).burstEmaFast - (p.expired s now).burstEmaSlow) < 0 then
        i32 (-i32 ((p.expired s now).burstEmaFast - (p.expired s now).burstEmaSlow))
      else i32 ((p.expired s now).burstEmaFast - (p.expired s now).burstEmaSlow) := rfl
  refine ⟨hfast, hslow, ?_⟩
  rw [hvar, i32_eq_self (by omega) (by omega)]
  split
  · next hneg => rw [i32_eq_self (by omega) (by omega), abs_of_neg hneg]
  · next hpos => rw [abs_of_nonneg (by omega)]

/-! ## Expiries in a row -/

/-- A process, seen after each expiry: bursts of `burst` ticks, with the weights of `s`. Between two
expiries everything but the EMAs may change. -/
def Expiries (burst : Int) (s : ℕ → SchedParams) (p : ℕ → Proc) : Prop :=
  ∀ n, ∃ (q : Proc) (now : Int), q.burstEmaFast = (p n).burstEmaFast ∧
    q.burstEmaSlow = (p n).burstEmaSlow ∧ i32 (now - q.burstStartTick) = burst ∧
    p (n + 1) = q.expired (s n) now

/-- Both EMAs are in range. -/
def Proc.EmaRange (p : Proc) : Prop :=
  (0 ≤ p.burstEmaFast ∧ p.burstEmaFast ≤ 5000) ∧ 0 ≤ p.burstEmaSlow ∧ p.burstEmaSlow ≤ 5000

/-- The values `x` go towards `t` without passing it, and come to rest where the weights `w` do not
move them. -/
structure Settles (w x : ℕ → Int) (t : Int) : Prop where
  below : ∀ n, x n ≤ t → x n ≤ x (n + 1) ∧ x (n + 1) ≤ t
  above : ∀ n, t ≤ x n → t ≤ x (n + 1) ∧ x (n + 1) ≤ x n
  rest : ∃ N v, ∀ n, N ≤ n → x n = v ∧ w n * |t - v| < 100

theorem settles_of_smooth {w x : ℕ → Int} {t : Int} (hw : ∀ n, 1 ≤ w n ∧ w n ≤ 90)
    (hx : ∀ n, x (n + 1) = smooth 100 (w n) t (x n)) : Settles w x t := by
  have hweight (n : ℕ) : 0 ≤ w n ∧ w n ≤ 100 := by
    have := hw n
    omega
  refine ⟨fun n hle => ?_, fun n hge => ?_, ?_⟩
  · rw [hx n]
    exact smooth_between_of_le (hweight n).1 (hweight n).2 (by omega) hle
  · rw [hx n]
    exact smooth_between_of_ge (hweight n).1 (hweight n).2 (by omega) hge
  · obtain ⟨N, hN⟩ := smooth_settles (by omega) hweight hx
    exact ⟨N, x N, hN⟩

namespace Expiries

variable {s : ℕ → SchedParams} {p : ℕ → Proc}

section

variable (h : Expiries burst s p)

include h

theorem emaRange (h0 : (p 0).EmaRange) (n : ℕ) : (p n).EmaRange := by
  cases n with
  | zero => exact h0
  | succ n =>
    obtain ⟨q, now, -, -, -, hnext⟩ := h n
    rw [hnext]
    exact ⟨(expired_range (s n) now q).1, (expired_range (s n) now q).2.1⟩

theorem variance (n : ℕ) :
    (p (n + 1)).burstVariance = |(p (n + 1)).burstEmaFast - (p (n + 1)).burstEmaSlow| := by
  obtain ⟨q, now, -, -, -, hnext⟩ := h n
  rw [hnext]
  exact (expired_range (s n) now q).2.2

theorem fast_settles (h0 : (p 0).EmaRange)
    (hb : 0 ≤ burst ∧ burst ≤ 50)
    (hw : ∀ n, 1 ≤ (s n).emaAlphaFast ∧ (s n).emaAlphaFast ≤ 90) :
    Settles (fun n => (s n).emaAlphaFast) (fun n => (p n).burstEmaFast) (100 * burst) := by
  refine settles_of_smooth hw fun n => ?_
  obtain ⟨q, now, hfast, -, rfl, hnext⟩ := h n
  rw [← emaNext_eq (hw n) hb (h.emaRange h0 n).1, hnext, ← hfast]
  rfl

theorem slow_settles (h0 : (p 0).EmaRange)
    (hb : 0 ≤ burst ∧ burst ≤ 50)
    (hw : ∀ n, 1 ≤ (s n).emaAlphaSlow ∧ (s n).emaAlphaSlow ≤ 90) :
    Settles (fun n => (s n).emaAlphaSlow) (fun n => (p n).burstEmaSlow) (100 * burst) := by
  refine settles_of_smooth hw fun n => ?_
  obtain ⟨q, now, -, hslow, rfl, hnext⟩ := h n
  rw [← emaNext_eq (hw n) hb (h.emaRange h0 n).2, hnext, ← hslow]
  rfl

/-- With the agent's weights both EMAs end up near 100 times the burst. -/
theorem near (h0 : (p 0).EmaRange) (hb : 0 ≤ burst ∧ burst ≤ 50)
    (hw : ∀ n, (s n).emaAlphaSlow = 10 ∧ 11 ≤ (s n).emaAlphaFast ∧ (s n).emaAlphaFast ≤ 90) :
    ∃ N, ∀ n, N ≤ n → |100 * burst - (p n).burstEmaFast| ≤ 9 ∧
      |100 * burst - (p n).burstEmaSlow| ≤ 9 ∧ (p n).burstVariance ≤ 18 := by
  obtain ⟨-, -, N, v, hfast⟩ := h.fast_settles h0 hb fun n => ⟨by have := hw n; omega, (hw n).2.2⟩
  obtain ⟨-, -, N', v', hslow⟩ := h.slow_settles h0 hb fun n => by have := hw n; omega
  -- a weight of at least ten leaves no room for a distance of ten
  have hlt {w d : Int} (hge : 10 ≤ w) (hd : 0 ≤ d) (hmul : w * d < 100) : d ≤ 9 := by
    have hten : 10 * d ≤ w * d := Int.mul_le_mul_of_nonneg_right hge hd
    omega
  have hnear (n : ℕ) (hn : max N N' ≤ n) : |100 * burst - (p n).burstEmaFast| ≤ 9 ∧
      |100 * burst - (p n).burstEmaSlow| ≤ 9 := by
    obtain ⟨heq, hmul⟩ := hfast n (by omega)
    obtain ⟨heq', hmul'⟩ := hslow n (by omega)
    rw [heq, heq']
    have := hw n
    exact ⟨hlt (by omega) (abs_nonneg _) hmul, hlt (by omega) (abs_nonneg _) hmul'⟩
  refine ⟨max N N' + 1, fun n hn => ?_⟩
  obtain ⟨m, rfl⟩ : ∃ m, n = m + 1 := ⟨n - 1, by omega⟩
  obtain ⟨hf, hs⟩ := hnear (m + 1) (by omega)
  refine ⟨hf, hs, ?_⟩
  rw [h.variance m]
  obtain ⟨hf1, hf2⟩ := abs_le.mp hf
  obtain ⟨hs1, hs2⟩ := abs_le.mp hs
  exact abs_le.mpr ⟨by omega, by omega⟩

end

end Expiries

end Xv6.Sched

namespace Xv6.Agent

open Sched Smoothing

variable {stats : List Schedstat} {st : Schedstat}

/-! ## What the agent sees -/

/-- The EMAs of an entry are in range. -/
def EmaRange (st : Schedstat) : Prop :=
  (0 ≤ st.burstEmaFast ∧ st.burstEmaFast ≤ 5000) ∧ 0 ≤ st.burstEmaSlow ∧ st.burstEmaSlow ≤ 5000

theorem divergence_eq (h : EmaRange st) : divergence st = |st.burstEmaFast - st.burstEmaSlow| := by
  obtain ⟨hfast, hslow⟩ := h
  unfold divergence
  rw [i32_eq_self (by omega) (by omega)]
  dsimp only
  split
  · next hneg => rw [i32_eq_self (by omega) (by omega), abs_of_neg hneg]
  · next hpos => rw [abs_of_nonneg (by omega)]

/-- A sum of at most 64 divergences is exact. -/
theorem accumulate_divergence (hlen : stats.length ≤ 64) (h : ∀ st ∈ stats, EmaRange st) :
    accumulate divergence stats = (stats.map divergence).sum ∧
      0 ≤ (stats.map divergence).sum ∧ (stats.map divergence).sum ≤ 5000 * stats.length := by
  have hrange (st : Schedstat) (hst : st ∈ stats) : 0 ≤ divergence st ∧ divergence st ≤ 5000 := by
    obtain ⟨hfast, hslow⟩ := h st hst
    rw [divergence_eq (h st hst)]
    exact ⟨abs_nonneg _, abs_le.mpr ⟨by omega, by omega⟩⟩
  have hlo : 0 ≤ (stats.map divergence).sum :=
    List.sum_nonneg (by simpa using fun st hst => (hrange st hst).1)
  have hhi : (stats.map divergence).sum ≤ 5000 * stats.length := by
    have hsum := List.sum_le_card_nsmul (stats.map divergence) 5000
      (by simpa using fun st hst => (hrange st hst).2)
    simpa [Int.mul_comm] using hsum
  exact ⟨accumulate_eq_sum (fun st hst => (hrange st hst).1) (by omega), hlo, hhi⟩

/-- The mean divergence is at most 50. -/
theorem detectPhaseChange_eq_zero_iff (hlen : stats.length ≤ 64) (h : ∀ st ∈ stats, EmaRange st)
    (hpos : 0 < stats.length) :
    detectPhaseChange stats = 0 ↔ (stats.map divergence).sum < 51 * stats.length := by
  obtain ⟨hacc, hlo, -⟩ := accumulate_divergence hlen h
  have hlen' : (0 : Int) < stats.length := by omega
  unfold detectPhaseChange
  dsimp only
  rw [if_pos hpos, hacc, Int.tdiv_eq_ediv_of_nonneg hlo, ← Int.ediv_lt_iff_lt_mul hlen']
  split
  · exact ⟨fun h => absurd h (by decide), fun h => by omega⟩
  · exact ⟨fun _ => by omega, fun _ => rfl⟩

/-- A process whose EMAs are close does not make a phase change. -/
theorem detectPhaseChange_cons (hlen : stats.length < 64) (h : ∀ st ∈ stats, EmaRange st)
    (hst : EmaRange st) (hclose : divergence st ≤ 50) (hquiet : detectPhaseChange stats = 0) :
    detectPhaseChange (st :: stats) = 0 := by
  have hcons : ∀ st' ∈ st :: stats, EmaRange st' := List.forall_mem_cons.mpr ⟨hst, h⟩
  rw [detectPhaseChange_eq_zero_iff (by rw [List.length_cons]; omega) hcons (by simp),
    List.map_cons, List.sum_cons, List.length_cons]
  by_cases hnil : stats = []
  · subst hnil
    simp only [List.map_nil, List.sum_nil, List.length_nil]
    omega
  · have hsum := (detectPhaseChange_eq_zero_iff (by omega) h
      (List.length_pos_iff.mpr hnil)).mp hquiet
    push_cast
    omega

/-- What a process does not add to the agent's phase-change signal: next to any other telemetry
that has none, it makes none. -/
def Steady (p : Proc) : Prop :=
  ∀ (alert : Int) (stats : List Schedstat), stats.length < 64 → (∀ st ∈ stats, EmaRange st) →
    detectPhaseChange stats = 0 → detectPhaseChange (p.schedstat alert :: stats) = 0

theorem steady_of_near {p : Proc} (h : p.EmaRange) {t : Int} (hfast : |t - p.burstEmaFast| ≤ 9)
    (hslow : |t - p.burstEmaSlow| ≤ 9) : Steady p := by
  intro alert stats hlen hstats hquiet
  have hrange : EmaRange (p.schedstat alert) := h
  refine detectPhaseChange_cons hlen hstats hrange ?_ hquiet
  rw [divergence_eq hrange]
  obtain ⟨hf1, hf2⟩ := abs_le.mp hfast
  obtain ⟨hs1, hs2⟩ := abs_le.mp hslow
  exact abs_le.mpr ⟨by simp only [Proc.schedstat]; omega, by simp only [Proc.schedstat]; omega⟩

/-- **The fixed-point EMA.** An expiry leaves both EMAs in range, whatever the inputs. In range, an
update lies between the old value and 100 times the burst, less than one from the exact combination,
and is monotone. Under bursts of one length the EMAs go towards 100 times that length and come to
rest; with the agent's weights, so near that the process looks steady. -/
theorem ema_fixed_point :
    (∀ (s : SchedParams) (now : Int) (p : Proc), (p.expired s now).EmaRange ∧
      (p.expired s now).burstVariance =
        |(p.expired s now).burstEmaFast - (p.expired s now).burstEmaSlow|) ∧
    (∀ alpha burst old : Int, 1 ≤ alpha ∧ alpha ≤ 90 → 0 ≤ burst ∧ burst ≤ 50 →
      0 ≤ old ∧ old ≤ 5000 →
      (min old (100 * burst) ≤ emaNext alpha burst old ∧
        emaNext alpha burst old ≤ max old (100 * burst)) ∧
      |100 * emaNext alpha burst old - ((100 - alpha) * old + alpha * (100 * burst))| < 100 ∧
      (∀ old', old ≤ old' → old' ≤ 5000 → emaNext alpha burst old ≤ emaNext alpha burst old') ∧
      ∀ burst', burst ≤ burst' → burst' ≤ 50 → emaNext alpha burst old ≤ emaNext alpha burst' old) ∧
    ∀ (burst : Int) (s : ℕ → SchedParams) (p : ℕ → Proc), 0 ≤ burst ∧ burst ≤ 50 →
      Expiries burst s p → (p 0).EmaRange →
      ((∀ n, 1 ≤ (s n).emaAlphaFast ∧ (s n).emaAlphaFast ≤ 90) →
        Settles (fun n => (s n).emaAlphaFast) (fun n => (p n).burstEmaFast) (100 * burst)) ∧
      ((∀ n, 1 ≤ (s n).emaAlphaSlow ∧ (s n).emaAlphaSlow ≤ 90) →
        Settles (fun n => (s n).emaAlphaSlow) (fun n => (p n).burstEmaSlow) (100 * burst)) ∧
      ((∀ n, (s n).emaAlphaSlow = 10 ∧ 11 ≤ (s n).emaAlphaFast ∧ (s n).emaAlphaFast ≤ 90) →
        ∃ N, ∀ n, N ≤ n → |100 * burst - (p n).burstEmaFast| ≤ 9 ∧
          |100 * burst - (p n).burstEmaSlow| ≤ 9 ∧ (p n).burstVariance ≤ 18 ∧ Steady (p n)) := by
  refine ⟨fun s now p => ?_, fun alpha burst old ha hb ho => ?_, fun burst s p hb h h0 => ?_⟩
  · obtain ⟨hfast, hslow, hvar⟩ := expired_range s now p
    exact ⟨⟨hfast, hslow⟩, hvar⟩
  · have ha0 : 0 ≤ alpha ∧ alpha ≤ 100 := by omega
    rw [emaNext_eq ha hb ho]
    refine ⟨?_, smooth_error 100 alpha (100 * burst) old (by omega), fun old' hle hold' => ?_,
      fun burst' hle hburst' => ?_⟩
    · by_cases hle : old ≤ 100 * burst
      · rw [min_eq_left hle, max_eq_right hle]
        exact smooth_between_of_le ha0.1 ha0.2 (by omega) hle
      · have hge : 100 * burst ≤ old := by omega
        rw [min_eq_right hge, max_eq_left hge]
        exact smooth_between_of_ge ha0.1 ha0.2 (by omega) hge
    · rw [emaNext_eq ha hb (by omega)]
      exact smooth_mono ha0.1 ha0.2 (by omega) hle _
    · rw [emaNext_eq ha (by omega) ho]
      exact smooth_mono_target ha0.1 (by omega) (by omega) _
  · refine ⟨h.fast_settles h0 hb, h.slow_settles h0 hb, fun hw => ?_⟩
    obtain ⟨N, hN⟩ := h.near h0 hb hw
    refine ⟨N, fun n hn => ?_⟩
    obtain ⟨hfast, hslow, hvar⟩ := hN n hn
    exact ⟨hfast, hslow, hvar, steady_of_near (h.emaRange h0 n) hfast hslow⟩

/-- A process that burns twenty ticks every time. -/
def twentyTicks (n : ℕ) : Proc := (fun p : Proc => p.expired pinit 20)^[n] Proc.zero

theorem twentyTicks_steady : ∃ N, ∀ n, N ≤ n → Steady (twentyTicks n) := by
  have hnext (n : ℕ) : twentyTicks (n + 1) = (twentyTicks n).expired pinit 20 :=
    Function.iterate_succ_apply' ..
  have hstart (n : ℕ) : (twentyTicks n).burstStartTick = 0 := by
    induction n with
    | zero => rfl
    | succ n ih =>
      rw [hnext]
      exact ih
  have hrun : Expiries 20 (fun _ => pinit) twentyTicks := fun n =>
    ⟨twentyTicks n, 20, rfl, rfl, by rw [hstart]; rfl, hnext n⟩
  have hrange : (twentyTicks 0).EmaRange := by
    unfold Proc.EmaRange twentyTicks
    decide
  obtain ⟨N, hN⟩ := (ema_fixed_point.2.2 20 _ _ (by decide) hrun hrange).2.2 fun _ => by decide
  exact ⟨N, fun n hn => (hN n hn).2.2.2⟩

end Xv6.Agent
