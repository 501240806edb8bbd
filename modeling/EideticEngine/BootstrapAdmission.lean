/-
# Admission before authentication (`src/mesh/bootstrap_envelope.rs`)

One fixed window for all attempts and one for each source.  A source that is not tracked gets a
window of its own when it comes; when the table is full, the windows that are over are forgotten.
Only windows that are over are ever forgotten, so a source that comes back finds no more room than
one that had stayed.
-/
import EideticEngine.FixedWindows
import Std.Data.ExtTreeMap

namespace BootstrapAdmission

open Std (ExtTreeMap)
open FixedWindows (Log Tracks)

/-! ## Windows -/

structure WindowBucket where
  windowStartMs : ℕ
  count : ℕ

namespace WindowBucket

def fresh (nowMs : ℕ) : WindowBucket := ⟨nowMs, 0⟩

def expired (bucket : WindowBucket) (windowMs nowMs : ℕ) : Bool :=
  windowMs ≤ nowMs - bucket.windowStartMs

def roll (bucket : WindowBucket) (windowMs nowMs : ℕ) : WindowBucket :=
  if windowMs ≤ nowMs - bucket.windowStartMs then fresh nowMs else bucket

def charge (bucket : WindowBucket) : WindowBucket := { bucket with count := bucket.count + 1 }

end WindowBucket

structure Admission where
  windowMs : ℕ
  sourceIpMaxPerWindow : ℕ
  globalMaxPerWindow : ℕ
  maxTrackedSources : ℕ
  global : WindowBucket
  perSource : ExtTreeMap String WindowBucket

def withLimits (windowMs sourceIpMaxPerWindow globalMaxPerWindow maxTrackedSources : ℕ) :
    Admission :=
  ⟨windowMs, sourceIpMaxPerWindow, globalMaxPerWindow, maxTrackedSources, .fresh 0, ∅⟩

inductive BootstrapEnvelopeError where
  | rateLimited
  deriving DecidableEq

/-- Make room for a source that is not tracked, if the table is full. -/
def Admission.makeRoom (a : Admission) (sourceIp : String) (nowMs : ℕ) :
    ExtTreeMap String WindowBucket :=
  if a.perSource.contains sourceIp then a.perSource
  else if a.maxTrackedSources ≤ a.perSource.size then
    a.perSource.filter fun _ bucket => !bucket.expired a.windowMs nowMs
  else a.perSource

/-- Admit or decline one attempt. -/
def Admission.admitOne (a : Admission) (sourceIp : String) (nowMs : ℕ) :
    Except BootstrapEnvelopeError Unit × Admission :=
  let a := { a with global := a.global.roll a.windowMs nowMs }
  if a.globalMaxPerWindow ≤ a.global.count then (.error .rateLimited, a)
  else
    let a := { a with perSource := a.makeRoom sourceIp nowMs }
    if !a.perSource.contains sourceIp && a.maxTrackedSources ≤ a.perSource.size then
      (.error .rateLimited, a)
    else
      let bucket := ((a.perSource[sourceIp]?).getD (.fresh nowMs)).roll a.windowMs nowMs
      if a.sourceIpMaxPerWindow ≤ bucket.count then
        (.error .rateLimited, { a with perSource := a.perSource.insert sourceIp bucket })
      else
        (.ok (), { a with
          perSource := a.perSource.insert sourceIp bucket.charge
          global := a.global.charge })

/-- Attempts, each with its source and its time, and those of them that were admitted. -/
def Admission.admitAll (a : Admission) : List (String × ℕ) → List (String × ℕ) × Admission
  | [] => ([], a)
  | attempt :: rest =>
    let (result, a') := a.admitOne attempt.1 attempt.2
    let (admitted, a'') := a'.admitAll rest
    (if result.isOk then attempt :: admitted else admitted, a'')

/-! ## Windows and what they let through -/

section

variable {width cap now clock : ℕ} {bucket : WindowBucket} {log : List (ℕ × ℕ)}

/-- A bucket stands for a log. -/
def WindowBucket.Stands (bucket : WindowBucket) (width cap : ℕ) (log : List (ℕ × ℕ)) : Prop :=
  Tracks width cap bucket.windowStartMs bucket.count log

/-- After a roll the time is within the window. -/
theorem roll_within (hp : 0 < width) (hs : bucket.windowStartMs ≤ now) :
    (bucket.roll width now).windowStartMs ≤ now
      ∧ now < (bucket.roll width now).windowStartMs + width := by
  unfold WindowBucket.roll
  split
  · exact ⟨le_rfl, Nat.lt_add_of_pos_right hp⟩
  · omega

/-- A roll begins a window only when the last one is over. -/
theorem WindowBucket.Stands.roll (h : bucket.Stands width cap log) (hp : 0 < width) (now : ℕ) :
    (bucket.roll width now).Stands width cap log := by
  unfold WindowBucket.roll
  split
  · have ho : bucket.windowStartMs + width ≤ now := by omega
    exact Tracks.fresh hp h.sound (h.over ho)
  · exact h

/-- What is admitted goes into the log with the start of its window. -/
theorem WindowBucket.Stands.charge (h : bucket.Stands width cap log) (hr : bucket.count < cap)
    (hs : bucket.windowStartMs ≤ now) (he : now < bucket.windowStartMs + width) :
    bucket.charge.Stands width cap (log ++ [(bucket.windowStartMs, now)]) :=
  Tracks.push h hr hs he

end

/-! ## The state and the logs -/

/-- The buckets stand for the logs of all attempts and of each source; the windows of a source that
is not tracked are over. -/
structure Inv (a : Admission) (clock : ℕ) (all : List (ℕ × ℕ))
    (logs : String → List (ℕ × ℕ)) : Prop where
  global : a.global.Stands a.windowMs a.globalMaxPerWindow all
  globalStart : a.global.windowStartMs ≤ clock
  tracked : ∀ (source : String) (bucket : WindowBucket), a.perSource[source]? = some bucket →
    bucket.Stands a.windowMs a.sourceIpMaxPerWindow (logs source) ∧ bucket.windowStartMs ≤ clock
  forgotten : ∀ source : String, a.perSource[source]? = none →
    Log a.windowMs a.sourceIpMaxPerWindow (logs source)
      ∧ ∀ e ∈ logs source, e.1 + a.windowMs ≤ clock
  size : a.perSource.size ≤ a.maxTrackedSources

section

variable {a : Admission} {clock now : ℕ} {all : List (ℕ × ℕ)} {logs : String → List (ℕ × ℕ)}
  {source : String} {bucket : WindowBucket}

theorem Inv.rollGlobal (h : Inv a clock all logs) (hp : 0 < a.windowMs) (hc : clock ≤ now) :
    Inv { a with global := a.global.roll a.windowMs now } now all logs where
  global := h.global.roll hp now
  globalStart := (roll_within hp (h.globalStart.trans hc)).1
  tracked := fun source bucket hb =>
    ⟨(h.tracked source bucket hb).1, (h.tracked source bucket hb).2.trans hc⟩
  forgotten := fun source hn =>
    ⟨(h.forgotten source hn).1, fun e he => ((h.forgotten source hn).2 e he).trans hc⟩
  size := h.size

/-- The log of a source is sound, tracked or not. -/
theorem Inv.log (h : Inv a clock all logs) (source : String) :
    Log a.windowMs a.sourceIpMaxPerWindow (logs source) := by
  cases hb : a.perSource[source]? with
  | none => exact (h.forgotten source hb).1
  | some bucket => exact (h.tracked source bucket hb).1.sound

/-- Only windows that are over are forgotten. -/
theorem Inv.makeRoom (h : Inv a now all logs) (hp : 0 < a.windowMs) (source : String) :
    Inv { a with perSource := a.makeRoom source now } now all logs := by
  unfold Admission.makeRoom
  split
  · exact h
  · split
    · constructor
      · exact h.global
      · exact h.globalStart
      · intro other bucket hb
        rw [ExtTreeMap.getElem?_filter', Option.filter_eq_some_iff] at hb
        exact h.tracked other bucket hb.1
      · intro other hn
        refine ⟨h.log other, ?_⟩
        rw [ExtTreeMap.getElem?_filter', Option.filter_eq_none_iff] at hn
        cases hb : a.perSource[other]? with
        | none => exact (h.forgotten other hb).2
        | some bucket =>
          have ho := hn bucket hb
          rw [Bool.not_eq_true', Bool.not_eq_false] at ho
          have he := of_decide_eq_true ho
          exact (h.tracked other bucket hb).1.over (by omega)
      · exact (ExtTreeMap.size_filter_le_size).trans h.size
    · exact h

/-- The bucket of a source, or a fresh one. -/
theorem Inv.bucketOf (h : Inv a now all logs) (hp : 0 < a.windowMs) (source : String) :
    ((a.perSource[source]?).getD (.fresh now)).Stands a.windowMs a.sourceIpMaxPerWindow
        (logs source)
      ∧ ((a.perSource[source]?).getD (.fresh now)).windowStartMs ≤ now := by
  cases hb : a.perSource[source]? with
  | none =>
    obtain ⟨hl, ho⟩ := h.forgotten source hb
    exact ⟨Tracks.fresh hp hl ho, le_rfl⟩
  | some bucket => exact h.tracked source bucket hb

/-- A new bucket of a source with its log. -/
theorem Inv.insert {log : List (ℕ × ℕ)} (h : Inv a now all logs)
    (hr : a.perSource.contains source = true ∨ a.perSource.size < a.maxTrackedSources)
    (hb : bucket.Stands a.windowMs a.sourceIpMaxPerWindow log)
    (hst : bucket.windowStartMs ≤ now) :
    Inv { a with perSource := a.perSource.insert source bucket } now all
      (Function.update logs source log) := by
  constructor
  · exact h.global
  · exact h.globalStart
  · intro other b' ho
    by_cases heq : other = source
    · subst heq
      rw [ExtTreeMap.getElem?_insert_self] at ho
      cases ho
      rw [Function.update_self]
      exact ⟨hb, hst⟩
    · rw [ExtTreeMap.getElem?_insert, if_neg (by simpa using fun hs => heq hs.symm)] at ho
      rw [Function.update_of_ne heq]
      exact h.tracked other b' ho
  · intro other hn
    by_cases heq : other = source
    · rw [heq, ExtTreeMap.getElem?_insert_self] at hn
      cases hn
    · rw [ExtTreeMap.getElem?_insert, if_neg (by simpa using fun hs => heq hs.symm)] at hn
      rw [Function.update_of_ne heq]
      exact h.forgotten other hn
  · change (a.perSource.insert source bucket).size ≤ a.maxTrackedSources
    rw [ExtTreeMap.size_insert]
    have hsi := h.size
    split
    · exact hsi
    · rename_i hne
      rcases hr with hol | hl
      · exact absurd (ExtTreeMap.contains_iff_mem.mp hol) hne
      · exact hl

theorem Inv.chargeGlobal (h : Inv a now all logs) (hr : a.global.count < a.globalMaxPerWindow)
    (he : now < a.global.windowStartMs + a.windowMs) :
    Inv { a with global := a.global.charge } now (all ++ [(a.global.windowStartMs, now)]) logs where
  global := h.global.charge hr h.globalStart he
  globalStart := h.globalStart
  tracked := h.tracked
  forgotten := h.forgotten
  size := h.size

/-- The limits of an admission state. -/
def Admission.limits (a : Admission) : ℕ × ℕ × ℕ × ℕ :=
  (a.windowMs, a.sourceIpMaxPerWindow, a.globalMaxPerWindow, a.maxTrackedSources)

theorem limits_admitOne : (a.admitOne source now).2.limits = a.limits := by
  unfold Admission.admitOne
  simp only
  split
  · rfl
  · split
    · rfl
    · split
      · rfl
      · rfl

/-- The times of the entries of a log. -/
def timesOf (log : List (ℕ × ℕ)) : List ℕ := log.map Prod.snd

theorem timesOf_append (log l' : List (ℕ × ℕ)) : timesOf (log ++ l') = timesOf log ++ timesOf l' :=
  List.map_append

/-- An attempt that is declined leaves the logs as they are. -/
theorem declined {r : Except BootstrapEnvelopeError Unit} (h : r.isOk = false)
    (log : List (ℕ × ℕ)) (p : Prop) [Decidable p] :
    timesOf log = timesOf log ++ (if r.isOk ∧ p then [now] else []) := by
  rw [if_neg (by simp [h]), List.append_nil]

/-- **One attempt**: if it is admitted, its time goes into the log of all and into that of its
source. -/
theorem Inv.admitOne (h : Inv a clock all logs) (hp : 0 < a.windowMs) (hc : clock ≤ now) :
    ∃ a' l', Inv (a.admitOne source now).2 now a' l'
      ∧ timesOf a' = timesOf all ++ (if (a.admitOne source now).1.isOk ∧ True then [now] else [])
      ∧ ∀ other, timesOf (l' other) = timesOf (logs other)
        ++ (if (a.admitOne source now).1.isOk ∧ other = source then [now] else []) := by
  have hg := h.rollGlobal hp hc
  have hw := roll_within hp (h.globalStart.trans hc)
  unfold Admission.admitOne
  simp only
  split
  · exact ⟨all, logs, hg, declined rfl all True, fun _ => declined rfl _ _⟩
  · rename_i hl
    have hm := hg.makeRoom hp source
    split
    · exact ⟨all, logs, hm, declined rfl all True, fun _ => declined rfl _ _⟩
    · rename_i hf
      rw [Bool.and_eq_true, not_and_or, Bool.not_eq_true', Bool.not_eq_false, decide_eq_true_eq,
        Nat.not_le] at hf
      obtain ⟨hs, hst⟩ := hm.bucketOf hp source
      have hr := hs.roll hp now
      obtain ⟨hb, he⟩ := roll_within hp hst
      split
      · -- The bucket is rolled and kept, and the source is over its cap.
        refine ⟨all, logs, ?_, declined rfl all True, fun _ => declined rfl _ _⟩
        have hi := hm.insert hf hr hb
        rwa [Function.update_eq_self] at hi
      · rename_i hco
        have hch := hr.charge (Nat.lt_of_not_le hco) hb he
        have hi := hm.insert hf hch hb
        refine ⟨_, _, hi.chargeGlobal (Nat.lt_of_not_le hl) hw.2, ?_, ?_⟩
        · rw [timesOf_append]
          rfl
        · intro other
          by_cases heq : other = source
          · subst heq
            rw [Function.update_self, timesOf_append, if_pos ⟨rfl, rfl⟩]
            rfl
          · rw [Function.update_of_ne heq, if_neg (fun hbo => heq hbo.2), List.append_nil]

/-! ## Every sequence of attempts -/

theorem admitAll_cons (attempt : String × ℕ) (r : List (String × ℕ)) : (a.admitAll (attempt :: r)).1
      = if (a.admitOne attempt.1 attempt.2).1.isOk then
          attempt :: ((a.admitOne attempt.1 attempt.2).2.admitAll r).1
        else ((a.admitOne attempt.1 attempt.2).2.admitAll r).1 :=
  rfl

/-- **A run of admissions keeps the invariant**. -/
theorem Inv.admitAll {as : List (String × ℕ)} (h : Inv a clock all logs)
    (hp : 0 < a.windowMs) (hs : (clock :: as.map Prod.snd).Pairwise (· ≤ ·)) :
    (a.admitAll as).2.limits = a.limits ∧ ∃ c' a' l', Inv (a.admitAll as).2 c' a' l'
      ∧ timesOf a' = timesOf all ++ (a.admitAll as).1.map Prod.snd
      ∧ ∀ other, timesOf (l' other) = timesOf (logs other)
        ++ ((a.admitAll as).1.filter (·.1 = other)).map Prod.snd := by
  induction as generalizing a clock all logs with
  | nil =>
    exact ⟨rfl, clock, all, logs, h, (List.append_nil _).symm, fun _ => (List.append_nil _).symm⟩
  | cons attempt r ih =>
    obtain ⟨hle, hr⟩ := List.pairwise_cons.mp hs
    obtain ⟨a₁, l₁, hi, ha, hlo⟩ := h.admitOne hp (hle attempt.2 List.mem_cons_self)
    have hl := @limits_admitOne a attempt.2 attempt.1
    have hp₁ : 0 < (a.admitOne attempt.1 attempt.2).2.windowMs := by
      rw [show (a.admitOne attempt.1 attempt.2).2.windowMs = a.windowMs from congrArg Prod.fst hl]
      exact hp
    obtain ⟨hl', c', a', l', hi', ha', hlo'⟩ := ih hi hp₁ hr
    refine ⟨hl'.trans hl, c', a', l', hi', ?_, ?_⟩
    · rw [ha', ha, admitAll_cons, List.append_assoc]
      by_cases hok : (a.admitOne attempt.1 attempt.2).1.isOk = true
      · rw [if_pos ⟨hok, trivial⟩, if_pos hok]
        rfl
      · rw [if_neg (fun hb => hok hb.1), if_neg hok]
        rfl
    · intro other
      rw [hlo', hlo, admitAll_cons, List.append_assoc]
      by_cases hok : (a.admitOne attempt.1 attempt.2).1.isOk = true
      · rw [if_pos hok, List.filter_cons]
        by_cases heq : other = attempt.1
        · rw [if_pos ⟨hok, heq⟩, if_pos (decide_eq_true heq.symm)]
          rfl
        · rw [if_neg (fun hb => heq hb.2), if_neg (by simpa using Ne.symm heq)]
          rfl
      · rw [if_neg (fun hb => hok hb.1), if_neg hok]
        rfl

end

theorem inv_withLimits (wms sm gm mt : ℕ) : Inv (withLimits wms sm gm mt) 0 [] fun _ => [] where
  global := ⟨.nil, rfl, by simp⟩
  globalStart := le_rfl
  tracked := by simp [withLimits]
  forgotten := fun _ _ => ⟨.nil, by simp⟩
  size := by simp [withLimits]

/-- Entries of a log in an interval, by their times. -/
theorem countP_timesOf (log : List (ℕ × ℕ)) (p : ℕ → Bool) :
    (timesOf log).countP p = log.countP fun e => p e.2 :=
  List.countP_map

/-- **Admission before authentication is bounded.**  For attempts in the order of their times, every
half-open interval of one window has at most twice the global cap of admissions, and at most twice
the cap of a source of those of the source, whatever was forgotten in between; and no more sources
are tracked than their cap. -/
theorem bootstrap_admissions_bounded {windowMs : ℕ} (hpos : 0 < windowMs)
    (sourceMax globalMax maxTracked : ℕ) {attempts : List (String × ℕ)}
    (hsorted : (attempts.map Prod.snd).Pairwise (· ≤ ·)) :
    let run := (withLimits windowMs sourceMax globalMax maxTracked).admitAll attempts
    (∀ t, run.1.countP (fun admitted => t ≤ admitted.2 ∧ admitted.2 < t + windowMs) ≤ 2 * globalMax)
      ∧ (∀ source t, run.1.countP (fun admitted => admitted.1 = source ∧ t ≤ admitted.2
          ∧ admitted.2 < t + windowMs) ≤ 2 * sourceMax)
      ∧ run.2.perSource.size ≤ maxTracked := by
  intro run
  have hz : (0 :: attempts.map Prod.snd).Pairwise (· ≤ ·) :=
    List.pairwise_cons.mpr ⟨fun _ _ => Nat.zero_le _, hsorted⟩
  obtain ⟨hl, clock, all, logs, hi, ha, hlo⟩ :=
    (inv_withLimits windowMs sourceMax globalMax maxTracked).admitAll hpos hz
  have hl : run.2.limits = (windowMs, sourceMax, globalMax, maxTracked) := hl
  simp only [Admission.limits, Prod.mk.injEq] at hl
  obtain ⟨hw, hs, hg, ht⟩ := hl
  refine ⟨?_, ?_, ?_⟩
  · intro t
    have hb := hi.global.sound.countP_interval_le t
    rw [← countP_timesOf all fun time => t ≤ time ∧ time < t + run.2.windowMs, ha, hw, hg] at hb
    exact List.countP_map.symm.trans_le hb
  · intro source t
    have hb := (hi.log source).countP_interval_le t
    rw [← countP_timesOf (logs source) fun time => t ≤ time ∧ time < t + run.2.windowMs,
      hlo source, hw, hs] at hb
    refine le_trans (le_of_eq ?_) hb
    rw [show timesOf [] = [] from rfl, List.nil_append, List.countP_map, List.countP_filter]
    congr 1
    funext admitted
    rw [Function.comp_apply, Bool.and_comm, ← Bool.decide_and]
  · exact ht ▸ hi.size

/-- Two attempts of one source on both sides of the end of its window, and one too many. -/
theorem bootstrap_admissions_bounded_sample :
    let run := (withLimits 60000 1 10 2).admitAll
      [("100.64.1.8", 59999), ("100.64.1.8", 60000), ("100.64.1.8", 119999)]
    ∀ source t, run.1.countP (fun admitted => admitted.1 = source ∧ t ≤ admitted.2
      ∧ admitted.2 < t + 60000) ≤ 2 * 1 :=
  (bootstrap_admissions_bounded (by decide) 1 10 2 (by decide)).2.1

end BootstrapAdmission
