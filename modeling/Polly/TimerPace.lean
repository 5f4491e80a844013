import Polly.TimerRun

/-!
# TimerPace — `RunAt`, `RunAfter` and `RunEvery` (`net/eventloop.cc`)

Followed by its number, a timer is awaited in the table or in the batch of a `HandleRead`
(`awaited`), or has been fired by the `HandleRead` under way and will be put back (`returning`).
Every step moves timers between these in one of four ways (`Moves`), and the firing times of one
number are read off the history (`firings`).  `ReArm` counts from the time `HandleRead` has read,
not from the expiration, so late firings are not made up for by early ones.

* `runEvery_paced`: the time of the call and the firings are each more than an interval apart, and
  the timer stands for ever.
* `runAfter_once`: a one-shot timer fires at most once, and only after its time.
-/

namespace Polly

open Runs

namespace TimerQueue

variable {κ : Type*}

/-! ### The functions of the loop

They read the clock and call `AddTimer`, which in the loop thread runs `addTimer` at once. -/

/-- The interval `0` of the timers that do not repeat. -/
def once : Interval := ⟨false, 0, Interval.nonneg_zero⟩

def runAt (ts : Timestamp) (cb : κ) : Act κ := .addTimer cb ts once

def runAfter (q : TimerQueue κ) (delay : Interval) (cb : κ) : Act κ :=
  .addTimer cb (q.clock + delay.micros) once

def runEvery (q : TimerQueue κ) (interval : Interval) (cb : κ) : Act κ :=
  .addTimer cb (q.clock + interval.micros) interval

/-! ### Where the timers are -/

/-- The timers to be fired as they stand. -/
def awaited (q : TimerQueue κ) : List (Timer κ) := q.order ++ q.batch.drop q.progress

/-- The repeating timers the `HandleRead` under way has fired, with the time it had read. -/
def returning (q : TimerQueue κ) : List (Timer κ × Timestamp) :=
  match q.phase with
  | .idle => []
  | .reading now expired it =>
    (((timersOf expired).take it).filter Timer.isRepeat).map fun t => (t, now)

/-- When the timer of this number was fired. -/
def firings (q : TimerQueue κ) (n : ℕ) : List Timestamp :=
  (q.fired.filter fun f => f.1.seqNum = n).map Prod.snd

theorem standing_eq (q : TimerQueue κ) :
    q.standing = q.awaited ++ q.returning.map Prod.fst := by
  unfold standing awaited returning batch progress
  cases q.phase with
  | idle => simp
  | reading now expired it => simp [Function.comp_def]

theorem returning_isRepeat {q : TimerQueue κ} {f : Timer κ × Timestamp} (h : f ∈ q.returning) :
    f.1.isRepeat = true := by
  unfold returning at h
  split at h
  · cases h
  · obtain ⟨t, ht, rfl⟩ := List.mem_map.mp h
    exact (List.mem_filter.mp ht).2

/-- What a step does to the timers. -/
inductive Moves (q q' : TimerQueue κ) : Prop where
  | keeps (hcreated : q'.created = q.created) (hawaited : q'.awaited.Perm q.awaited)
      (hreturning : q'.returning = q.returning) (hfired : q'.fired = q.fired)
  | adds (cb : κ) (when : Timestamp) (interval : Interval) (hcreated : q'.created = q.created + 1)
      (hawaited : q'.awaited.Perm (Timer.new cb when interval q.created :: q.awaited))
      (hreturning : q'.returning = q.returning) (hfired : q'.fired = q.fired)
  | fires (t : Timer κ) (now : Timestamp) (hdue : t.expiration < now)
      (hcreated : q'.created = q.created) (hawaited : q.awaited.Perm (t :: q'.awaited))
      (hreturning : q'.returning = q.returning ++ if t.isRepeat then [(t, now)] else [])
      (hfired : q'.fired = q.fired ++ [(t, now)])
  | resets (hcreated : q'.created = q.created)
      (hawaited : q'.awaited = q.awaited ++ q.returning.map fun f => f.1.reArm f.2)
      (hreturning : q'.returning = []) (hfired : q'.fired = q.fired)

theorem addTimer_moves {q q' : TimerQueue κ} {cb : κ} {when : Timestamp} {interval : Interval}
    (hI : Inv q) (h : step q (.addTimer cb when interval) = some q') :
    q'.created = q.created + 1 ∧
      q'.awaited.Perm (Timer.new cb when interval q.created :: q.awaited) ∧
      q'.returning = q.returning ∧ q'.fired = q.fired := by
  simp only [step] at h
  split_ifs at h
  obtain ⟨fd, hadd⟩ := addTimer_spec hI.table cb when interval
  rw [hadd] at h
  cases h
  refine ⟨rfl, ?_, rfl, rfl⟩
  change (q.order ++ [_] ++ q.batch.drop q.progress).Perm (_ :: (q.order ++ _))
  rw [List.append_assoc]
  exact List.perm_middle

theorem step_moves {q q' : TimerQueue κ} {a : Act κ} (hI : Inv q) (h : step q a = some q') :
    Moves q q' := by
  cases a with
  | advance now =>
    obtain ⟨-, rfl⟩ := guarded_eq_some.mp h
    exact .keeps rfl (List.Perm.refl _) rfl rfl
  | addTimer cb when interval =>
    obtain ⟨hc, ha, hr, hf⟩ := addTimer_moves hI h
    exact .adds cb when interval hc ha hr hf
  | handleRead =>
    simp only [step] at h
    split at h
    · rename_i hp
      cases h
      obtain ⟨l, hl, hperm, -⟩ := hI.table
      refine .keeps rfl ?_ (by simp [returning, startRead, hp]) rfl
      have hexp := (hl.getExpired q.clock).1
      have hsplit : (q.order.filter (fun t => !decide (t.expiration < q.clock)) ++
          l.filter fun t => decide (t.expiration < q.clock)).Perm q.order :=
        (((hperm.filter _).append_left _).trans List.perm_append_comm).trans
          (List.filter_append_perm _ _)
      simpa [awaited, startRead, batch, progress, hp, hexp.timersOf] using hsplit
    · cases h
  | fire =>
    simp only [step] at h
    split at h
    · cases h
    · rename_i now expired it hp
      split at h
      · rename_i k t hget
        cases h
        obtain ⟨-, l, hl, hdue, -⟩ := hI.reading_spec hp
        obtain ⟨hlt, rfl⟩ := List.getElem?_eq_some_iff.mp (hl.getElem?_eq_some hget)
        refine .fires l[it] now (hdue _ (List.getElem_mem hlt)) rfl ?_ ?_ rfl
        · simp only [awaited, batch, progress, hp, hl.timersOf]
          rw [List.drop_eq_getElem_cons hlt]
          exact List.perm_middle
        · simp only [returning, hp, hl.timersOf]
          rw [← List.take_append_getElem hlt, List.filter_append, List.map_append]
          split_ifs with hrep <;> simp [hrep]
      · cases h
  | reset =>
    simp only [step] at h
    split at h
    · cases h
    · rename_i now expired it hp
      split_ifs at h with hlen
      obtain ⟨-, l, hl, -, -⟩ := hI.reading_spec hp
      obtain ⟨timers, fd, hreset, -⟩ := reset_spec now hI.table hl
      rw [hreset] at h
      cases h
      have hit : it = l.length := hlen.trans hl.length
      refine .resets rfl ?_ rfl rfl
      simp [awaited, returning, batch, progress, hp, hl.timersOf, hit, rearmed,
        Function.comp_def]

/-! ### Following one timer -/

/-- The timer `n`, added for `when` with this interval, in a later state. -/
structure Paced (n : ℕ) (when : Timestamp) (interval : Interval) (q : TimerQueue κ) : Prop where
  created : n < q.created
  /-- it is known by its number -/
  known : ∀ t, t ∈ q.standing ∨ t ∈ q.fired.map Prod.fst → t.seqNum = n →
    t.isRepeat = interval.positive ∧ t.interval = interval
  chain : ((when - interval.micros) :: q.firings n).IsChain fun a b => a + interval.micros < b
  next : ∀ t ∈ q.awaited, t.seqNum = n →
    (q.firings n).getLastD (when - interval.micros) + interval.micros ≤ t.expiration
  back : ∀ f ∈ q.returning, f.1.seqNum = n →
    (q.firings n).getLastD (when - interval.micros) ≤ f.2
  /-- a repeating one is not lost -/
  held : interval.positive = true → ∃ t ∈ q.standing, t.seqNum = n

section Steps

variable {q q' : TimerQueue κ} {n : ℕ} {when : Timestamp} {interval : Interval}

theorem mem_standing {t : Timer κ} :
    t ∈ q.standing ↔ t ∈ q.awaited ∨ ∃ now, (t, now) ∈ q.returning := by
  rw [standing_eq, List.mem_append]
  simp

/-- Two timers that stand do not have the same number. -/
theorem Inv.alone {t : Timer κ} {l : List (Timer κ)} (hI : Inv q) (hl : q.awaited.Perm (t :: l)) :
    (∀ t' ∈ l, t'.seqNum ≠ t.seqNum) ∧ ∀ f ∈ q.returning, f.1.seqNum ≠ t.seqNum := by
  have hnodup : (q.standing.map Timer.seqNum).Nodup := (List.nodup_append.mp hI.nodup).2.1
  have hperm : q.standing.Perm (t :: (l ++ q.returning.map Prod.fst)) := by
    rw [standing_eq]
    exact hl.append_right _
  rw [(hperm.map _).nodup_iff, List.map_cons, List.nodup_cons, List.mem_map] at hnodup
  refine ⟨fun t' ht' he => hnodup.1 ⟨t', List.mem_append_left _ ht', he⟩, fun f hf he => ?_⟩
  exact hnodup.1 ⟨f.1, List.mem_append_right _ (List.mem_map_of_mem hf), he⟩

theorem firings_fired {t : Timer κ} {now : Timestamp} (h : q'.fired = q.fired ++ [(t, now)]) :
    q'.firings n = q.firings n ++ if t.seqNum = n then [now] else [] := by
  unfold firings
  rw [h, List.filter_append, List.map_append]
  split_ifs with hn <;> simp [hn]

/-- Nothing fired: the timers that stand are the old ones, new ones of other numbers, and timers
put back. -/
theorem Paced.of_fired_eq (hP : Paced n when interval q) (hfired : q'.fired = q.fired)
    (hcreated : q.created ≤ q'.created)
    (hawaited : ∀ t ∈ q'.awaited, t ∈ q.awaited ∨ t.seqNum = q.created ∨
      ∃ f ∈ q.returning, t = f.1.reArm f.2)
    (hreturning : ∀ f ∈ q'.returning, f ∈ q.returning)
    (hheld : ∀ t ∈ q.standing, ∃ t' ∈ q'.standing, t'.seqNum = t.seqNum) :
    Paced n when interval q' := by
  have hfirings : q'.firings n = q.firings n := by
    unfold firings
    rw [hfired]
  have hnew : n ≠ q.created := hP.created.ne
  refine ⟨hP.created.trans_le hcreated, fun t ht hn => ?_, hfirings ▸ hP.chain, fun t ht hn => ?_,
    fun f hf hn => hfirings ▸ hP.back f (hreturning f hf) hn, fun hpos => ?_⟩
  · rw [hfired, mem_standing] at ht
    rcases ht with (ht | ⟨now, ht⟩) | ht
    · rcases hawaited t ht with ht | ht | ⟨f, hf, rfl⟩
      · exact hP.known t (Or.inl (mem_standing.mpr (Or.inl ht))) hn
      · exact absurd (hn.symm.trans ht) hnew
      · exact hP.known f.1 (Or.inl (mem_standing.mpr (Or.inr ⟨f.2, hf⟩))) hn
    · exact hP.known t (Or.inl (mem_standing.mpr (Or.inr ⟨now, hreturning _ ht⟩))) hn
    · exact hP.known t (Or.inr ht) hn
  · rw [hfirings]
    rcases hawaited t ht with ht | ht | ⟨f, hf, rfl⟩
    · exact hP.next t ht hn
    · exact absurd (hn.symm.trans ht) hnew
    · -- `ReArm` counts from the time of the firing
      have hint : f.1.interval = interval :=
        (hP.known f.1 (Or.inl (mem_standing.mpr (Or.inr ⟨f.2, hf⟩))) hn).2
      have hexp : (f.1.reArm f.2).expiration = f.2 + interval.micros := by
        simp [Timer.reArm, returning_isRepeat hf, hint]
      rw [hexp]
      exact add_le_add_left (hP.back f hf hn) _
  · obtain ⟨t, ht, hn⟩ := hP.held hpos
    obtain ⟨t', ht', he⟩ := hheld t ht
    exact ⟨t', ht', he.trans hn⟩

theorem Paced.fires {t : Timer κ} {now : Timestamp} (hI : Inv q) (hP : Paced n when interval q)
    (hdue : t.expiration < now) (hcreated : q'.created = q.created)
    (hawaited : q.awaited.Perm (t :: q'.awaited))
    (hreturning : q'.returning = q.returning ++ if t.isRepeat then [(t, now)] else [])
    (hfired : q'.fired = q.fired ++ [(t, now)]) : Paced n when interval q' := by
  obtain ⟨hothers, hreturned⟩ := hI.alone hawaited
  have ht : t ∈ q.awaited := hawaited.mem_iff.mpr List.mem_cons_self
  have hstays : ∀ t' ∈ q'.awaited, t' ∈ q.awaited := fun t' ht' =>
    hawaited.mem_iff.mpr (List.mem_cons_of_mem _ ht')
  have hstanding : ∀ t' ∈ q'.standing, t' ∈ q.standing := by
    intro t' ht'
    rw [mem_standing] at ht' ⊢
    rcases ht' with ht' | ⟨now', ht'⟩
    · exact Or.inl (hstays t' ht')
    · rw [hreturning, List.mem_append] at ht'
      rcases ht' with ht' | ht'
      · exact Or.inr ⟨now', ht'⟩
      · split_ifs at ht'
        · cases List.mem_singleton.mp ht'
          exact Or.inl ht
        · cases ht'
  have hknown : ∀ t', t' ∈ q'.standing ∨ t' ∈ q'.fired.map Prod.fst → t'.seqNum = n →
      t'.isRepeat = interval.positive ∧ t'.interval = interval := by
    intro t' ht' hn
    rw [hfired, List.map_append, List.mem_append] at ht'
    rcases ht' with ht' | ht' | ht'
    · exact hP.known t' (Or.inl (hstanding t' ht')) hn
    · exact hP.known t' (Or.inr ht') hn
    · cases List.mem_singleton.mp ht'
      exact hP.known t (Or.inl (mem_standing.mpr (Or.inl ht))) hn
  have hlt : n < q'.created := hcreated ▸ hP.created
  have hheld : interval.positive = true → ∃ t' ∈ q'.standing, t'.seqNum = n := by
    intro hpos
    obtain ⟨t', ht', hn⟩ := hP.held hpos
    have hrep : t'.isRepeat = true := (hP.known t' (Or.inl ht') hn).1.trans hpos
    refine ⟨t', ?_, hn⟩
    rw [mem_standing] at ht' ⊢
    rcases ht' with ht' | ⟨now', ht'⟩
    · rcases List.mem_cons.mp (hawaited.mem_iff.mp ht') with rfl | ht'
      · exact Or.inr ⟨now, by rw [hreturning, if_pos hrep]; simp⟩
      · exact Or.inl ht'
    · exact Or.inr ⟨now', by rw [hreturning]; exact List.mem_append_left _ ht'⟩
  by_cases hn : t.seqNum = n
  · -- the timer itself: nothing else of its number stands
    have hfirings : q'.firings n = q.firings n ++ [now] := by
      rw [firings_fired hfired, if_pos hn]
    have hnext := hP.next t ht hn
    refine ⟨hlt, hknown, ?_, fun t' ht' hn' => ?_, fun f hf hn' => ?_, hheld⟩
    · rw [hfirings, ← List.cons_append, List.isChain_append]
      refine ⟨hP.chain, List.isChain_singleton _, fun a ha b hb => ?_⟩
      cases Option.mem_some.mp hb
      rw [List.getLast?_cons, Option.mem_some] at ha
      rw [List.getLastD_eq_getLast?, ha] at hnext
      exact hnext.trans_lt hdue
    · exact absurd (hn'.trans hn.symm) (hothers t' ht')
    · rw [hfirings, List.getLastD_concat]
      rw [hreturning, List.mem_append] at hf
      rcases hf with hf | hf
      · exact absurd (hn'.trans hn.symm) (hreturned f hf)
      · split_ifs at hf
        · cases List.mem_singleton.mp hf
          exact le_rfl
        · cases hf
  · have hfirings : q'.firings n = q.firings n := by
      rw [firings_fired hfired, if_neg hn, List.append_nil]
    refine ⟨hlt, hknown, hfirings ▸ hP.chain, fun t' ht' hn' => ?_, fun f hf hn' => ?_, hheld⟩
    · exact hfirings ▸ hP.next t' (hstays t' ht') hn'
    · rw [hreturning, List.mem_append] at hf
      rcases hf with hf | hf
      · exact hfirings ▸ hP.back f hf hn'
      · split_ifs at hf
        · cases List.mem_singleton.mp hf
          exact absurd hn' hn
        · cases hf

theorem step_paced {a : Act κ} (hI : Inv q) (hP : Paced n when interval q)
    (h : step q a = some q') : Paced n when interval q' := by
  rcases step_moves hI h with ⟨hc, ha, hr, hf⟩ | ⟨cb, w, i, hc, ha, hr, hf⟩ |
    ⟨t, now, hdue, hc, ha, hr, hf⟩ | ⟨hc, ha, hr, hf⟩
  · refine hP.of_fired_eq hf hc.ge (fun t ht => Or.inl (ha.mem_iff.mp ht)) (fun f hf => hr ▸ hf)
      (fun t ht => ⟨t, ?_, rfl⟩)
    rw [mem_standing] at ht ⊢
    rwa [ha.mem_iff, hr]
  · refine hP.of_fired_eq hf (hc ▸ Nat.le_succ _) (fun t ht => ?_) (fun f hf => hr ▸ hf)
      (fun t ht => ⟨t, ?_, rfl⟩)
    · rcases List.mem_cons.mp (ha.mem_iff.mp ht) with rfl | ht
      · exact Or.inr (Or.inl rfl)
      · exact Or.inl ht
    · rw [mem_standing] at ht ⊢
      rw [ha.mem_iff, hr, List.mem_cons]
      exact ht.imp_left Or.inr
  · exact hP.fires hI hdue hc ha hr hf
  · refine hP.of_fired_eq hf hc.ge (fun t ht => ?_) (fun f hf => ?_) (fun t ht => ?_)
    · rw [ha, List.mem_append] at ht
      refine ht.imp_right fun ht => Or.inr ?_
      obtain ⟨f, hf, rfl⟩ := List.mem_map.mp ht
      exact ⟨f, hf, rfl⟩
    · rw [hr] at hf
      cases hf
    · rcases mem_standing.mp ht with ht | ⟨now, ht⟩
      · exact ⟨t, mem_standing.mpr (Or.inl (ha ▸ List.mem_append_left _ ht)), rfl⟩
      · refine ⟨t.reArm now, mem_standing.mpr (Or.inl ?_), rfl⟩
        rw [ha]
        exact List.mem_append_right _ (List.mem_map.mpr ⟨_, ht, rfl⟩)

/-- The numbers of the timers fired have been given out. -/
theorem step_numbered {a : Act κ} (hI : Inv q) (hN : ∀ f ∈ q.fired, f.1.seqNum < q.created)
    (h : step q a = some q') : ∀ f ∈ q'.fired, f.1.seqNum < q'.created := by
  rcases step_moves hI h with ⟨hc, -, -, hf⟩ | ⟨-, -, -, hc, -, -, hf⟩ |
    ⟨t, now, -, hc, ha, -, hf⟩ | ⟨hc, -, -, hf⟩
  · rwa [hf, hc]
  · rw [hf, hc]
    exact fun f hf => (hN f hf).trans (Nat.lt_succ_self _)
  · rw [hf, hc, List.forall_mem_append, List.forall_mem_singleton]
    refine ⟨hN, hI.created _ (List.mem_append_right _ (List.mem_map_of_mem ?_))⟩
    exact mem_standing.mpr (Or.inl (ha.mem_iff.mpr List.mem_cons_self))
  · rwa [hf, hc]

theorem Reachable.numbered (h : Reachable q) : ∀ f ∈ q.fired, f.1.seqNum < q.created := by
  refine (Reach.inv (I := fun q => Inv q ∧ ∀ f ∈ q.fired, f.1.seqNum < q.created) ?_
    (fun _ _ _ hq hs => ⟨step_inv hq.1 hs, step_numbered hq.1 hq.2 hs⟩) h).2
  rintro q ⟨clock, created, rfl⟩
  exact ⟨new_inv clock created, fun f hf => absurd hf List.not_mem_nil⟩

/-- A timer just added is paced. -/
theorem addTimer_paced {cb : κ} (hq : Reachable q)
    (h : step q (.addTimer cb when interval) = some q') : Paced q.created when interval q' := by
  have hI := hq.inv
  obtain ⟨hc, ha, hr, hf⟩ := addTimer_moves hI h
  have hfirings : q'.firings q.created = [] := by
    unfold firings
    rw [hf, List.map_eq_nil_iff, List.filter_eq_nil_iff]
    intro f hf
    simpa using (hq.numbered f hf).ne
  have hold : ∀ t ∈ q.standing, t.seqNum ≠ q.created := fun t ht =>
    (hI.created _ (List.mem_append_right _ (List.mem_map_of_mem ht))).ne
  have hnew : ∀ t ∈ q'.awaited, t.seqNum = q.created →
      t = Timer.new cb when interval q.created := by
    intro t ht hn
    rcases List.mem_cons.mp (ha.mem_iff.mp ht) with rfl | ht
    · rfl
    · exact absurd hn (hold t (mem_standing.mpr (Or.inl ht)))
  have hback : ∀ f ∈ q'.returning, f.1.seqNum ≠ q.created := fun f hf =>
    hold f.1 (mem_standing.mpr (Or.inr ⟨f.2, hr ▸ hf⟩))
  refine ⟨hc ▸ Nat.lt_succ_self _, ?_, ?_, fun t ht hn => ?_, fun f hf hn => ?_, fun _ => ?_⟩
  · rintro t (ht | ht) hn
    · rcases mem_standing.mp ht with ht | ⟨now, ht⟩
      · rw [hnew t ht hn]
        exact ⟨rfl, rfl⟩
      · exact absurd hn (hback _ ht)
    · rw [hf] at ht
      obtain ⟨f, hf, rfl⟩ := List.mem_map.mp ht
      exact absurd hn (hq.numbered f hf).ne
  · rw [hfirings]
    exact List.isChain_singleton _
  · rw [hfirings, hnew t ht hn]
    exact (sub_add_cancel _ _).le
  · exact absurd hn (hback f hf)
  · exact ⟨_, mem_standing.mpr (Or.inl (ha.mem_iff.mpr List.mem_cons_self)), rfl⟩

theorem run_paced {q₀ : TimerQueue κ} {cb : κ} {as : List (Act κ)} (hq : Reachable q₀)
    (hadd : step q₀ (.addTimer cb when interval) = some q) (hrun : run step q as = some q') :
    Inv q' ∧ Paced q₀.created when interval q' := by
  refine run_inv (I := fun q => Inv q ∧ Paced q₀.created when interval q)
    (fun _ _ _ hq hs => ⟨step_inv hq.1 hs, step_paced hq.1 hq.2 hs⟩) hrun ?_
  exact ⟨step_inv hq.inv hadd, addTimer_paced hq hadd⟩

/-- The firings of a one-shot timer are all among `oneShots`. -/
theorem Paced.firings_length_le (hI : Inv q) (hP : Paced n when interval q)
    (hone : interval.positive = false) : (q.firings n).length ≤ 1 := by
  have hcount : (q.firings n).length = q.oneShots.count n := by
    unfold firings oneShots
    rw [List.length_map, List.count_eq_countP, List.countP_map, List.countP_filter,
      ← List.countP_eq_length_filter]
    refine List.countP_congr fun f hf => ?_
    have hknown := fun hn => (hP.known f.1 (Or.inr (List.mem_map_of_mem hf)) hn).1
    simp only [decide_eq_true_eq, Function.comp_apply, Bool.and_eq_true, Bool.not_eq_true',
      beq_iff_eq]
    exact ⟨fun hn => ⟨hn, (hknown hn).trans hone⟩, fun hn => hn.1⟩
  rw [hcount]
  exact List.nodup_iff_count_le_one.mp (List.nodup_append.mp hI.nodup).1 n

end Steps

/-! ### The results -/

/-- **`RunEvery` is paced.**  Whatever other timers there are, whatever the callbacks add and
however late `HandleRead` is called: the time of the call and the times of the firings are each
more than the interval after the one before, and a timer with a positive interval is there for
ever. -/
theorem runEvery_paced {q₀ q₁ q : TimerQueue κ} {interval : Interval} {cb : κ} {as : List (Act κ)}
    (hq : Reachable q₀) (hadd : step q₀ (q₀.runEvery interval cb) = some q₁)
    (hrun : run step q₁ as = some q) :
    (q₀.clock :: q.firings q₀.created).IsChain (fun a b => a + interval.micros < b) ∧
      (interval.positive = true → ∃ t ∈ q.standing, t.seqNum = q₀.created) := by
  obtain ⟨-, hP⟩ := run_paced hq hadd hrun
  have hchain := hP.chain
  rw [add_sub_cancel_right] at hchain
  exact ⟨hchain, hP.held⟩

/-- A timer of interval ten that is two intervals late, and a one-shot timer added meanwhile. -/
def lateTicks : List (Act Unit) :=
  [.advance 35, .handleRead, .fire, runAt 36 (), .reset, .advance 46, .handleRead, .fire, .fire,
    .reset]

theorem runEvery_paced_lateTicks : ∃ q₁ q : TimerQueue Unit,
    step (new 5 0) (runEvery (new 5 0) everyTen ()) = some q₁ ∧
    run step q₁ lateTicks = some q ∧ q.firings 0 = [35, 46] ∧
    ((new 5 0 : TimerQueue Unit).clock :: q.firings 0).IsChain
      (fun a b => a + everyTen.micros < b) ∧
    (everyTen.positive = true → ∃ t ∈ q.standing, t.seqNum = 0) := by
  have hex : ∃ q₁, step (new 5 0) (runEvery (new 5 0) everyTen ()) = some q₁ ∧
      ∃ q, run step q₁ lateTicks = some q ∧ q.firings 0 = [35, 46] := ⟨_, rfl, _, rfl, rfl⟩
  obtain ⟨q₁, hadd, q, hrun, hfirings⟩ := hex
  exact ⟨q₁, q, hadd, hrun, hfirings, runEvery_paced ⟨_, [], ⟨5, 0, rfl⟩, rfl⟩ hadd hrun⟩

/-- A timer added by `RunAt` fires at most once, and only after its time. -/
theorem runAt_once {q₀ q₁ q : TimerQueue κ} {ts : Timestamp} {cb : κ} {as : List (Act κ)}
    (hq : Reachable q₀) (hadd : step q₀ (runAt ts cb) = some q₁)
    (hrun : run step q₁ as = some q) :
    (q.firings q₀.created).length ≤ 1 ∧ ∀ t ∈ q.firings q₀.created, ts < t := by
  obtain ⟨hI, hP⟩ := run_paced hq hadd hrun
  have hlen := hP.firings_length_le hI rfl
  refine ⟨hlen, fun t ht => ?_⟩
  have hchain := hP.chain
  obtain ⟨t', ht'⟩ := List.length_eq_one_iff.mp (hlen.antisymm (List.length_pos_of_mem ht))
  rw [ht', List.mem_singleton] at ht
  rw [ht', List.isChain_pair] at hchain
  rw [ht]
  simpa [once] using hchain

theorem runAfter_once {q₀ q₁ q : TimerQueue κ} {delay : Interval} {cb : κ} {as : List (Act κ)}
    (hq : Reachable q₀) (hadd : step q₀ (q₀.runAfter delay cb) = some q₁)
    (hrun : run step q₁ as = some q) :
    (q.firings q₀.created).length ≤ 1 ∧
      ∀ t ∈ q.firings q₀.created, q₀.clock + delay.micros < t :=
  runAt_once hq hadd hrun

end TimerQueue

end Polly
