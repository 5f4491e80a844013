import Polly.TimerQueue

/-!
# TimerRun — what the timer queue fires, and when

The table holds the pending timers under their own expirations, sorted, and equal expirations in
order of insertion (`Agrees`).  `addTimer`, `getExpired` and `reset` keep this and never meet a null
pointer; each has one lemma that says what it does to the timers.  Every timer number is in exactly
one place (`numbers`): among the one-shot timers that have fired or among those that may still fire.

* `handleRead_spec`: a whole `HandleRead`, whatever the callbacks add.
* `timers_fire`: the firing rules in every reachable state.
-/

namespace Polly

open Runs

namespace TimerQueue

variable {κ : Type*}

/-! ### Tables of timers -/

/-- The entry of a timer. -/
def entry (t : Timer κ) : Timestamp × Option (Timer κ) := (t.expiration, some t)

/-- The timers of a table, in the table's order. -/
def timersOf (m : TimerTable κ) : List (Timer κ) := m.entries.filterMap Prod.snd

/-- The table holds the timers `l` in this order, each under its expiration. -/
def Holds (m : TimerTable κ) (l : List (Timer κ)) : Prop := m.entries = l.map entry

section Holds

variable {m : TimerTable κ} {l : List (Timer κ)}

theorem Holds.timersOf (h : Holds m l) : timersOf m = l := by
  unfold TimerQueue.timersOf
  rw [h, List.filterMap_map]
  exact List.filterMap_some

theorem Holds.length (h : Holds m l) : m.entries.length = l.length := by
  rw [h, List.length_map]

theorem Holds.getElem? (h : Holds m l) (it : ℕ) : m.entries[it]? = l[it]?.map entry := by
  rw [h, List.getElem?_map]

theorem Holds.getElem?_eq_some (h : Holds m l) {it : ℕ} {k : Timestamp} {t : Timer κ}
    (hget : m.entries[it]? = some (k, some t)) : l[it]? = some t := by
  rw [h.getElem?] at hget
  obtain ⟨t', ht', hentry⟩ := Option.map_eq_some_iff.mp hget
  rw [ht']
  exact (Prod.ext_iff.mp hentry).2

theorem Holds.sorted (h : Holds m l) : l.Pairwise fun a b => a.expiration ≤ b.expiration := by
  have hs := m.sorted
  rwa [h, List.pairwise_map] at hs

theorem entry_injective : Function.Injective (entry (κ := κ)) := by
  intro a b h
  exact Option.some.inj (Prod.ext_iff.mp h).2

/-- The entries of one key are the timers of one expiration. -/
theorem Holds.filter_key (h : Holds m l) (e : Timestamp) :
    m.entries.filter (fun x => x.1 = e) = (l.filter fun t => t.expiration = e).map entry := by
  rw [h, List.filter_map]
  rfl

theorem Holds.emplace (h : Holds m l) (t : Timer κ) :
    ∃ l', Holds (m.emplace t.expiration (some t)) l' ∧ l'.Perm (t :: l) ∧
      ∀ e, l'.filter (fun x => x.expiration = e) =
        l.filter (fun x => x.expiration = e) ++ if t.expiration = e then [t] else [] := by
  set l' := l.takeWhile (fun x => decide (x.expiration ≤ t.expiration)) ++
    t :: l.dropWhile (fun x => decide (x.expiration ≤ t.expiration)) with hl'
  have hh : Holds (m.emplace t.expiration (some t)) l' := by
    unfold Holds
    rw [Multimap.emplace_entries, h, List.takeWhile_map, List.dropWhile_map, hl', List.map_append]
    rfl
  refine ⟨l', hh, ?_, fun e => ?_⟩
  · refine List.perm_middle.trans (List.Perm.cons t ?_)
    rw [List.takeWhile_append_dropWhile]
  · have hkey := m.filter_key_emplace t.expiration (some t) e
    rw [hh.filter_key, h.filter_key] at hkey
    refine entry_injective.list_map ?_
    rw [hkey, List.map_append]
    split_ifs <;> rfl

theorem Holds.below (h : Holds m l) (now : Timestamp) :
    m.below now = (l.filter fun t => t.expiration < now).map entry := by
  rw [Multimap.below_eq_filter, h, List.filter_map]
  rfl

/-- `GetExpired` splits the table at `now`. -/
theorem Holds.getExpired (h : Holds m l) (now : Timestamp) :
    Holds (getExpired m now).1 (l.filter fun t => t.expiration < now) ∧
      Holds (getExpired m now).2 (l.filter fun t => !decide (t.expiration < now)) := by
  constructor
  · exact (m.foldl_emplace_below now).trans (h.below now)
  · unfold Holds TimerQueue.getExpired
    rw [Multimap.eraseBelow_eq_filter, h, List.filter_map]
    rfl

/-- A table that is not empty has a first timer to ask. -/
theorem Holds.firstExpiration_isSome (h : Holds m l) (hne : m.entries.isEmpty = false) :
    (firstExpiration m).isSome := by
  cases l with
  | nil => rw [h] at hne; cases hne
  | cons t l => simp [firstExpiration, show m.entries = entry t :: l.map entry from h, entry]

end Holds

/-- The table agrees with the order of insertion. -/
def Agrees (m : TimerTable κ) (order : List (Timer κ)) : Prop :=
  ∃ l, Holds m l ∧ l.Perm order ∧
    ∀ e, l.filter (fun t => t.expiration = e) = order.filter fun t => t.expiration = e

section Agrees

variable {m : TimerTable κ} {order : List (Timer κ)}

theorem agrees_empty : Agrees (κ := κ) Multimap.empty [] :=
  ⟨[], rfl, List.Perm.refl _, fun _ => rfl⟩

theorem Agrees.emplace (h : Agrees m order) (t : Timer κ) :
    Agrees (m.emplace t.expiration (some t)) (order ++ [t]) := by
  obtain ⟨l, hl, hperm, hties⟩ := h
  obtain ⟨l', hl', hperm', hties'⟩ := hl.emplace t
  refine ⟨l', hl', ?_, fun e => ?_⟩
  · exact hperm'.trans ((List.Perm.cons t hperm).trans (List.perm_append_singleton t order).symm)
  · rw [hties', hties, List.filter_append]
    congr 1
    by_cases he : t.expiration = e <;> simp [he]

/-- Erasing by expiration leaves the order of the others. -/
theorem Agrees.getExpired (h : Agrees m order) (now : Timestamp) :
    Agrees (getExpired m now).2 (order.filter fun t => !decide (t.expiration < now)) := by
  obtain ⟨l, hl, hperm, hties⟩ := h
  refine ⟨_, (hl.getExpired now).2, hperm.filter _, fun e => ?_⟩
  rw [List.filter_comm, hties, List.filter_comm]

end Agrees

/-! ### The operations -/

section Ops

variable {q : TimerQueue κ}

/-- Scheduling only touches the timerfd. -/
theorem schedule_eq (q : TimerQueue κ) (e : Timestamp) :
    ∃ fd, q.schedule e = { q with timerfd := fd } := by
  unfold schedule
  split_ifs
  · exact ⟨_, rfl⟩
  · exact ⟨q.timerfd, rfl⟩

/-- `addTimer` inserts the new timer and touches the timerfd. -/
theorem addTimer_spec (h : Agrees q.timers q.order) (cb : κ) (when : Timestamp)
    (interval : Interval) :
    ∃ fd, q.addTimer cb when interval =
      some ({ q with created := q.created + 1, timerfd := fd }.emplace
        (Timer.new cb when interval q.created)) := by
  set q₁ := { q with created := q.created + 1 }.emplace (Timer.new cb when interval q.created)
    with hq₁
  obtain ⟨b, hb⟩ : ∃ b, needUpdate q.timers when = some b := by
    unfold needUpdate
    split_ifs with hempty
    · exact ⟨true, rfl⟩
    · obtain ⟨l, hl, -⟩ := h
      obtain ⟨e, he⟩ := Option.isSome_iff_exists.mp
        (hl.firstExpiration_isSome (by simpa using hempty))
      exact ⟨_, by rw [he]; rfl⟩
  have hadd : q.addTimer cb when interval =
      if b then (firstExpiration q₁.timers).map q₁.schedule else some q₁ := by
    rw [addTimer, hb]
    rfl
  cases b with
  | false => exact ⟨q.timerfd, by rw [hadd]; rfl⟩
  | true =>
    obtain ⟨l, hl, hperm, -⟩ := h.emplace (Timer.new cb when interval q.created)
    have hne : q₁.timers.entries.isEmpty = false := by
      have hl' : Holds q₁.timers l := hl
      cases l with
      | nil => exact absurd hperm.length_eq (by simp)
      | cons t l => rw [show q₁.timers.entries = _ from hl']; rfl
    have hl' : Holds q₁.timers l := hl
    obtain ⟨e, he⟩ := Option.isSome_iff_exists.mp (hl'.firstExpiration_isSome hne)
    obtain ⟨fd, hfd⟩ := schedule_eq q₁ e
    exact ⟨fd, by rw [hadd, if_pos rfl, he, Option.map_some, hfd]; rfl⟩

/-- The repeating timers of an expired batch, re-armed. -/
def rearmed (now : Timestamp) (expired : List (Timer κ)) : List (Timer κ) :=
  (expired.filter Timer.isRepeat).map fun t => t.reArm now

theorem reinsert_spec (now : Timestamp) (expired : List (Timer κ)) (h : Agrees q.timers q.order) :
    ∃ timers, reinsert now q (expired.map entry) =
        some { q with timers := timers, order := q.order ++ rearmed now expired } ∧
      Agrees timers (q.order ++ rearmed now expired) := by
  induction expired generalizing q with
  | nil =>
    refine ⟨q.timers, ?_, ?_⟩
    · simp [reinsert, rearmed]
    · simpa [rearmed] using h
  | cons t expired ih =>
    by_cases ht : t.isRepeat
    · obtain ⟨timers, hrun, hagrees⟩ := ih (q := q.emplace (t.reArm now)) (h.emplace _)
      have hrearmed : rearmed now (t :: expired) = t.reArm now :: rearmed now expired := by
        simp [rearmed, ht]
      refine ⟨timers, ?_, ?_⟩
      · simp only [List.map_cons, entry, reinsert, if_pos ht]
        rw [hrun]
        simp [emplace, hrearmed]
      · rw [hrearmed]
        simpa [emplace] using hagrees
    · obtain ⟨timers, hrun, hagrees⟩ := ih h
      have hrearmed : rearmed now (t :: expired) = rearmed now expired := by
        simp [rearmed, ht]
      refine ⟨timers, ?_, by rw [hrearmed]; exact hagrees⟩
      rw [hrearmed, ← hrun]
      simp only [List.map_cons, entry, reinsert, if_neg ht]

/-- `reset` puts the repeating timers back and touches the timerfd. -/
theorem reset_spec {expired : TimerTable κ} {l : List (Timer κ)} (now : Timestamp)
    (h : Agrees q.timers q.order) (hl : Holds expired l) :
    ∃ timers fd, q.reset expired now =
        some { q with timers := timers, timerfd := fd, order := q.order ++ rearmed now l } ∧
      Agrees timers (q.order ++ rearmed now l) := by
  obtain ⟨timers, hrun, hagrees⟩ := reinsert_spec now l h
  set q₁ : TimerQueue κ := { q with timers := timers, order := q.order ++ rearmed now l } with hq₁
  have hreset : q.reset expired now =
      if timers.entries.isEmpty then some (q₁.schedule 0)
      else (firstExpiration timers).map q₁.schedule := by
    rw [reset, show expired.entries = l.map entry from hl, hrun]
    rfl
  by_cases hempty : timers.entries.isEmpty
  · obtain ⟨fd, hfd⟩ := schedule_eq q₁ 0
    exact ⟨timers, fd, by rw [hreset, if_pos hempty, hfd], hagrees⟩
  · obtain ⟨l', hl', -⟩ := id hagrees
    obtain ⟨e, he⟩ := Option.isSome_iff_exists.mp
      (hl'.firstExpiration_isSome (by simpa using hempty))
    obtain ⟨fd, hfd⟩ := schedule_eq q₁ e
    exact ⟨timers, fd, by rw [hreset, if_neg hempty, he, Option.map_some, hfd], hagrees⟩

end Ops

/-! ### The invariant -/

/-- What a `HandleRead` under way has taken out, and how far it is. -/
def batch (q : TimerQueue κ) : List (Timer κ) :=
  match q.phase with
  | .idle => []
  | .reading _ expired _ => timersOf expired

def progress (q : TimerQueue κ) : ℕ :=
  match q.phase with
  | .idle => 0
  | .reading _ _ it => it

/-- The timers that may still fire: those of the table, those to be fired by the `HandleRead` under
way, and those it will put back. -/
def standing (q : TimerQueue κ) : List (Timer κ) :=
  q.order ++ q.batch.drop q.progress ++ (q.batch.take q.progress).filter Timer.isRepeat

/-- The numbers of the one-shot timers that have fired. -/
def oneShots (q : TimerQueue κ) : List ℕ :=
  (q.fired.filter fun f => !f.1.isRepeat).map fun f => f.1.seqNum

/-- All timer numbers, each in its place. -/
def numbers (q : TimerQueue κ) : List ℕ := q.oneShots ++ q.standing.map Timer.seqNum

/-- A `HandleRead` under way holds timers that were due when it read the clock. -/
def ReadingInv (q : TimerQueue κ) : Prop :=
  match q.phase with
  | .idle => True
  | .reading now expired it =>
    now ≤ q.clock ∧ ∃ l, Holds expired l ∧ (∀ t ∈ l, t.expiration < now) ∧ it ≤ l.length

structure Inv (q : TimerQueue κ) : Prop where
  table : Agrees q.timers q.order
  reading : ReadingInv q
  fired : ∀ f ∈ q.fired, f.1.expiration < f.2 ∧ f.2 ≤ q.clock
  nodup : q.numbers.Nodup
  created : ∀ n ∈ q.numbers, n < q.created

theorem new_inv (clock : Timestamp) (created : ℕ) : Inv (new clock created : TimerQueue κ) where
  table := agrees_empty
  reading := trivial
  fired := fun _ hf => absurd hf List.not_mem_nil
  nodup := List.nodup_nil
  created := fun _ hn => absurd hn List.not_mem_nil

theorem Inv.reading_spec {q : TimerQueue κ} {now : Timestamp} {expired : TimerTable κ} {it : ℕ}
    (h : Inv q) (hp : q.phase = .reading now expired it) :
    now ≤ q.clock ∧ ∃ l, Holds expired l ∧ (∀ t ∈ l, t.expiration < now) ∧ it ≤ l.length := by
  have hr := h.reading
  unfold ReadingInv at hr
  rwa [hp] at hr

/-- The numbers after a step: the same, or with a new one. -/
theorem Inv.of_numbers {q q' : TimerQueue κ} (h : Inv q) (htable : Agrees q'.timers q'.order)
    (hreading : ReadingInv q') (hfired : ∀ f ∈ q'.fired, f.1.expiration < f.2 ∧ f.2 ≤ q'.clock)
    (hnum : (q'.numbers.Perm q.numbers ∧ q'.created = q.created) ∨
      (q'.numbers.Perm (q.created :: q.numbers) ∧ q'.created = q.created + 1)) : Inv q' := by
  rcases hnum with ⟨hperm, hc⟩ | ⟨hperm, hc⟩
  · refine ⟨htable, hreading, hfired, hperm.nodup_iff.mpr h.nodup, fun n hn => ?_⟩
    rw [hc]
    exact h.created n (hperm.mem_iff.mp hn)
  · refine ⟨htable, hreading, hfired, hperm.nodup_iff.mpr ?_, fun n hn => ?_⟩
    · exact List.nodup_cons.mpr ⟨fun hmem => lt_irrefl _ (h.created _ hmem), h.nodup⟩
    · rw [hc]
      rcases List.mem_cons.mp (hperm.mem_iff.mp hn) with rfl | hn
      · exact Nat.lt_succ_self _
      · exact (h.created n hn).trans (Nat.lt_succ_self _)

theorem addTimer_numbers (q : TimerQueue κ) (t : Timer κ) (fd : Timerfd) (c : ℕ) :
    ({ q with created := c, timerfd := fd }.emplace t).numbers.Perm (t.seqNum :: q.numbers) := by
  have hperm : ∀ (a b c : List ℕ) (n : ℕ), (a ++ (b ++ [n] ++ c)).Perm (n :: (a ++ (b ++ c))) := by
    intro a b c n
    have h₁ : a ++ (b ++ [n] ++ c) = (a ++ b) ++ n :: c := by simp
    have h₂ : a ++ (b ++ c) = (a ++ b) ++ c := by simp
    rw [h₁, h₂]
    exact List.perm_middle
  have hnum := hperm q.oneShots (q.order.map Timer.seqNum)
    ((q.batch.drop q.progress).map Timer.seqNum ++
      ((q.batch.take q.progress).filter Timer.isRepeat).map Timer.seqNum) t.seqNum
  simpa [numbers, standing, emplace, oneShots, batch, progress] using hnum

/-- The start of `HandleRead` moves the due timers from the table to the batch. -/
theorem startRead_numbers {q : TimerQueue κ} {l : List (Timer κ)} (hp : q.phase = .idle)
    (hl : Holds q.timers l) (hperm : l.Perm q.order) : q.startRead.numbers.Perm q.numbers := by
  have hexp := (hl.getExpired q.clock).1
  have hsplit : (q.order.filter (fun t => !decide (t.expiration < q.clock)) ++
      l.filter fun t => decide (t.expiration < q.clock)).Perm q.order :=
    (((hperm.filter _).append_left _).trans List.perm_append_comm).trans
      (List.filter_append_perm _ _)
  have hstand : q.startRead.standing.Perm q.standing := by
    simpa [standing, startRead, batch, progress, hp, hexp.timersOf] using hsplit
  exact (hstand.map _).append_left _

/-- Firing moves a timer from those to be fired to those fired: a repeating one will be put back, a
one-shot one is done. -/
theorem fire_numbers {q : TimerQueue κ} {now : Timestamp} {expired : TimerTable κ} {it : ℕ}
    {l : List (Timer κ)} (hp : q.phase = .reading now expired it) (hl : Holds expired l)
    (hlt : it < l.length) :
    ({ q with
      phase := .reading now expired (it + 1)
      fired := q.fired ++ [(l[it], now)] } : TimerQueue κ).numbers.Perm q.numbers := by
  have hdrop : l.drop it = l[it] :: l.drop (it + 1) := List.drop_eq_getElem_cons hlt
  have htake : l.take (it + 1) = l.take it ++ [l[it]] := (List.take_append_getElem hlt).symm
  simp only [numbers, oneShots, standing, batch, progress, hp, hl.timersOf, hdrop, htake,
    List.filter_append, List.map_append, List.map_cons]
  refine List.perm_iff_count.mpr fun n => ?_
  cases hrep : l[it].isRepeat with
  | true =>
    simp only [hrep, List.filter_cons, List.filter_nil, List.count_append, List.count_cons,
      List.map_cons, List.map_nil, Bool.not_true, Bool.false_eq_true, if_false, if_true,
      List.count_nil]
    omega
  | false =>
    simp only [hrep, List.filter_cons, List.filter_nil, List.count_append, List.count_cons,
      List.map_cons, List.map_nil, Bool.not_false, Bool.false_eq_true, if_false, if_true,
      List.count_nil]
    omega

theorem step_inv {q q' : TimerQueue κ} {a : Act κ} (hI : Inv q) (h : step q a = some q') :
    Inv q' := by
  cases a with
  | advance now =>
    obtain ⟨hle, rfl⟩ := guarded_eq_some.mp h
    refine hI.of_numbers hI.table ?_ (fun f hf => ?_) (Or.inl ⟨List.Perm.refl _, rfl⟩)
    · have hr := hI.reading
      unfold ReadingInv at hr ⊢
      cases hp : q.phase with
      | idle => simp
      | reading now' expired it =>
        simp only [hp] at hr ⊢
        exact ⟨hr.1.trans hle, hr.2⟩
    · exact ⟨(hI.fired f hf).1, (hI.fired f hf).2.trans hle⟩
  | addTimer cb when interval =>
    simp only [step] at h
    split_ifs at h
    obtain ⟨fd, hadd⟩ := addTimer_spec hI.table cb when interval
    rw [hadd] at h
    cases h
    refine hI.of_numbers (hI.table.emplace _) hI.reading hI.fired (Or.inr ⟨?_, rfl⟩)
    exact addTimer_numbers q (Timer.new cb when interval q.created) fd (q.created + 1)
  | handleRead =>
    simp only [step] at h
    split at h
    · rename_i hp
      cases h
      obtain ⟨l, hl, hperm, -⟩ := hI.table
      refine hI.of_numbers (hI.table.getExpired q.clock) ?_ hI.fired
        (Or.inl ⟨startRead_numbers hp hl hperm, rfl⟩)
      refine ⟨le_rfl, _, (hl.getExpired q.clock).1, fun t ht => ?_, Nat.zero_le _⟩
      simpa using (List.mem_filter.mp ht).2
    · cases h
  | fire =>
    simp only [step] at h
    split at h
    · cases h
    · rename_i now expired it hp
      split at h
      · rename_i k t hget
        cases h
        obtain ⟨hnow, l, hl, hdue, -⟩ := hI.reading_spec hp
        obtain ⟨hlt, rfl⟩ := List.getElem?_eq_some_iff.mp (hl.getElem?_eq_some hget)
        refine hI.of_numbers hI.table ⟨hnow, l, hl, hdue, hlt⟩ ?_ (Or.inl ⟨?_, rfl⟩)
        · intro f hf
          rcases List.mem_append.mp hf with hf | hf
          · exact hI.fired f hf
          · rw [List.mem_singleton.mp hf]
            exact ⟨hdue _ (List.getElem_mem hlt), hnow⟩
        · exact fire_numbers hp hl hlt
      · cases h
  | reset =>
    simp only [step] at h
    split at h
    · cases h
    · rename_i now expired it hp
      split_ifs at h with hlen
      obtain ⟨-, l, hl, -, -⟩ := hI.reading_spec hp
      obtain ⟨timers, fd, hreset, hagrees⟩ := reset_spec now hI.table hl
      rw [hreset] at h
      cases h
      refine hI.of_numbers hagrees trivial hI.fired (Or.inl ⟨?_, rfl⟩)
      have hit : it = l.length := hlen.trans hl.length
      have hseq : (rearmed now l).map Timer.seqNum =
          (l.filter Timer.isRepeat).map Timer.seqNum := by
        simp [rearmed, Timer.reArm, Function.comp_def]
      simp [numbers, oneShots, standing, batch, progress, hp, hl.timersOf, hit, hseq]

theorem Reachable.inv {q : TimerQueue κ} (h : Reachable q) : Inv q := by
  refine Reach.inv ?_ (fun _ _ _ => step_inv) h
  rintro q ⟨clock, created, rfl⟩
  exact new_inv clock created

/-! ### A whole `HandleRead` -/

/-- The timers of the table that are due. -/
def due (q : TimerQueue κ) : List (Timer κ) :=
  (timersOf q.timers).filter fun t => t.expiration < q.clock

/-- The timers added by these steps, numbered from `created` on. -/
def added (created : ℕ) : List (Act κ) → List (Timer κ)
  | [] => []
  | .addTimer cb when interval :: as => Timer.new cb when interval created :: added (created + 1) as
  | _ :: as => added created as

section Reading

variable {q q' : TimerQueue κ} {now : Timestamp} {expired : TimerTable κ} {it : ℕ}
  {l : List (Timer κ)} {past : List (Timer κ × Timestamp)}

/-- A step inside `HandleRead` adds a timer or fires the next one of the batch. -/
theorem reading_step {a : Act κ} (hI : Inv q) (hp : q.phase = .reading now expired it)
    (hl : Holds expired l) (hpast : q.fired = past ++ (l.take it).map fun t => (t, now))
    (ha : a ≠ .reset) (h : step q a = some q') :
    (∃ it', q'.phase = .reading now expired it' ∧
      q'.fired = past ++ (l.take it').map fun t => (t, now)) ∧
    ∀ as, q'.order ++ added q'.created as = q.order ++ added q.created (a :: as) := by
  cases a with
  | advance now' =>
    obtain ⟨-, rfl⟩ := guarded_eq_some.mp h
    exact ⟨⟨it, hp, hpast⟩, fun as => rfl⟩
  | addTimer cb when interval =>
    simp only [step] at h
    split_ifs at h
    obtain ⟨fd, hadd⟩ := addTimer_spec hI.table cb when interval
    rw [hadd] at h
    cases h
    refine ⟨⟨it, hp, hpast⟩, fun as => ?_⟩
    simp [emplace, added]
  | handleRead =>
    simp only [step, hp] at h
    cases h
  | fire =>
    simp only [step, hp] at h
    split at h
    · rename_i k t hget
      cases h
      refine ⟨⟨it + 1, rfl, ?_⟩, fun as => rfl⟩
      rw [List.take_add_one, hl.getElem?_eq_some hget, hpast]
      simp
    · cases h
  | reset => exact absurd rfl ha

theorem reading_run {as : List (Act κ)} (hI : Inv q) (hp : q.phase = .reading now expired it)
    (hl : Holds expired l) (hpast : q.fired = past ++ (l.take it).map fun t => (t, now))
    (has : .reset ∉ as) (h : run step q as = some q') :
    (∃ it', q'.phase = .reading now expired it' ∧
      q'.fired = past ++ (l.take it').map fun t => (t, now)) ∧
    q'.order = q.order ++ added q.created as := by
  induction as generalizing q it with
  | nil =>
    cases h
    exact ⟨⟨it, hp, hpast⟩, by simp [added]⟩
  | cons a as ih =>
    obtain ⟨q₁, h₁, h₂⟩ := run_cons_some.mp h
    have ha : a ≠ .reset := fun he => has (he ▸ List.mem_cons_self)
    obtain ⟨⟨it₁, hp₁, hpast₁⟩, horder⟩ := reading_step hI hp hl hpast ha h₁
    obtain ⟨hend, horder'⟩ := ih (step_inv hI h₁) hp₁ hpast₁
      (fun hmem => has (List.mem_cons_of_mem _ hmem)) h₂
    exact ⟨hend, by rw [horder', horder]⟩

end Reading

/-- What a `HandleRead` does that starts in `q`, during which the steps `as` are taken, and that
ends in `q'`. -/
structure HandleReadSpec (q : TimerQueue κ) (as : List (Act κ)) (q' : TimerQueue κ) : Prop where
  idle : q'.phase = .idle
  /-- exactly the timers that were due are fired, each once, in the order of the table -/
  fired : q'.fired = q.fired ++ q.due.map fun t => (t, q.clock)
  sorted : q.due.Pairwise fun a b => a.expiration ≤ b.expiration
  ties : ∀ e, q.due.filter (fun t => t.expiration = e) =
    (q.order.filter fun t => t.expiration < q.clock).filter fun t => t.expiration = e
  /-- the others stay, what was added is there, and the repeating ones are back -/
  order : q'.order = q.order.filter (fun t => !decide (t.expiration < q.clock)) ++
    added q.created as ++ rearmed q.clock q.due
  rearmed : ∀ t ∈ q.due, t.isRepeat = true →
    { t with expiration := q.clock + t.interval.micros } ∈ timersOf q'.timers

theorem handleRead_spec {q q' : TimerQueue κ} {as : List (Act κ)} (hI : Inv q)
    (hidle : q.phase = .idle) (has : .reset ∉ as)
    (h : run step q (.handleRead :: (as ++ [.reset])) = some q') : HandleReadSpec q as q' := by
  obtain ⟨q₁, h₁, h⟩ := run_cons_some.mp h
  rw [run_append, Option.bind_eq_some_iff] at h
  obtain ⟨q₂, h₂, h⟩ := h
  obtain ⟨q₃, h₃, h⟩ := run_cons_some.mp h
  cases h
  have hI₁ := step_inv hI h₁
  simp only [step, hidle] at h₁
  obtain rfl : q.startRead = q₁ := Option.some.inj h₁
  obtain ⟨l, hl, hperm, hties⟩ := hI.table
  have hexp : Holds (getExpired q.timers q.clock).1 q.due := by
    unfold due
    rw [hl.timersOf]
    exact (hl.getExpired q.clock).1
  have hpast : q.startRead.fired = q.fired ++ (q.due.take 0).map fun t => (t, q.clock) := by
    simp [startRead]
  obtain ⟨⟨it, hp, hfired⟩, horder⟩ := reading_run hI₁ rfl hexp hpast has h₂
  have hI₂ := run_inv (fun _ _ _ => step_inv) h₂ hI₁
  simp only [step, hp] at h₃
  split_ifs at h₃ with hlen
  obtain ⟨timers, fd, hreset, hagrees⟩ := reset_spec q.clock hI₂.table hexp
  rw [hreset] at h₃
  cases h₃
  have hit : it = q.due.length := hlen.trans hexp.length
  refine ⟨rfl, ?_, hexp.sorted, fun e => ?_, ?_, fun t ht hrep => ?_⟩
  · rw [show q₂.fired = _ from hfired, hit, List.take_length]
  · unfold due
    rw [hl.timersOf, List.filter_comm, hties, List.filter_comm]
  · rw [show q₂.order = _ from horder]
    rfl
  · obtain ⟨l', hl', hperm', -⟩ := hagrees
    rw [hl'.timersOf, hperm'.mem_iff]
    refine List.mem_append_right _ (List.mem_map.mpr ⟨t, List.mem_filter.mpr ⟨ht, hrep⟩, ?_⟩)
    simp [Timer.reArm, hrep]

/-- **Timer firing.**  In every reachable state: every entry of the table holds a timer under its
own expiration, and equal expirations stand in order of insertion; no timer has fired before its
expiration; no one-shot timer has fired twice or is in the table after it has fired; no step of the
code meets a null pointer; and a `HandleRead` does what `HandleReadSpec` says, whatever is added
while it runs. -/
theorem timers_fire {q : TimerQueue κ} (h : Reachable q) :
    (∀ e ∈ q.timers.entries, ∃ t, e = (t.expiration, some t)) ∧
    ((timersOf q.timers).Perm q.order ∧
      ∀ e, (timersOf q.timers).filter (fun t => t.expiration = e) =
        q.order.filter fun t => t.expiration = e) ∧
    (∀ f ∈ q.fired, f.1.expiration < f.2 ∧ f.2 ≤ q.clock) ∧
    (q.oneShots.Nodup ∧ ∀ t ∈ timersOf q.timers, t.seqNum ∉ q.oneShots) ∧
    ((∀ cb when interval, q.mayAdd = true → (step q (.addTimer cb when interval)).isSome) ∧
      ∀ now expired it, q.phase = .reading now expired it →
        (step q (if it < expired.entries.length then .fire else .reset)).isSome) ∧
    ∀ as q', q.phase = .idle → .reset ∉ as →
      run step q (.handleRead :: (as ++ [.reset])) = some q' → HandleReadSpec q as q' := by
  have hI := h.inv
  obtain ⟨l, hl, hperm, hties⟩ := id hI.table
  refine ⟨fun e he => ?_, ⟨?_, ?_⟩, hI.fired, ⟨?_, fun t ht => ?_⟩, ⟨?_, ?_⟩, ?_⟩
  · rw [show q.timers.entries = l.map entry from hl] at he
    obtain ⟨t, -, rfl⟩ := List.mem_map.mp he
    exact ⟨t, rfl⟩
  · rw [hl.timersOf]
    exact hperm
  · rw [hl.timersOf]
    exact hties
  · exact (List.nodup_append.mp hI.nodup).1
  · intro hmem
    have hdisj := (List.nodup_append.mp hI.nodup).2.2
    rw [hl.timersOf, hperm.mem_iff] at ht
    have hstand : t.seqNum ∈ q.standing.map Timer.seqNum :=
      List.mem_map_of_mem (List.mem_append_left _ (List.mem_append_left _ ht))
    exact hdisj _ hmem _ hstand rfl
  · intro cb when interval hmay
    obtain ⟨fd, hadd⟩ := addTimer_spec hI.table cb when interval
    simp only [step, hmay, if_true, hadd, Option.isSome_some]
  · intro now expired it hp
    obtain ⟨-, x, hx, -, hit⟩ := hI.reading_spec hp
    have hlen := hx.length
    split_ifs with hlt
    · have hget : expired.entries[it]? = some (entry x[it]) := by
        rw [hx.getElem?, List.getElem?_eq_getElem (hlen ▸ hlt)]
        rfl
      simp [step, hp, hget, entry]
    · obtain ⟨timers, fd, hreset, -⟩ := reset_spec now hI.table hx
      have hend : it = expired.entries.length := by omega
      simp [step, hp, hend, hreset]
  · intro as q' hidle has hrun
    exact handleRead_spec hI hidle has hrun

def everyTen : Interval := ⟨true, 10, fun _ => by decide⟩

/-- Two one-shot timers for the same time and a repeating one before them. -/
def threeTimers : List (Act Unit) :=
  [.addTimer () 5 ⟨false, 0, Interval.nonneg_zero⟩, .addTimer () 3 everyTen,
    .addTimer () 5 ⟨false, 0, Interval.nonneg_zero⟩, .advance 6]

/-- They are fired, and a callback adds a timer that is already due. -/
def threeFires : List (Act Unit) :=
  [.fire, .addTimer () 1 ⟨false, 0, Interval.nonneg_zero⟩, .fire, .fire]

theorem timers_fire_three : ∃ q q' : TimerQueue Unit, run step (new 0 0) threeTimers = some q ∧
    run step q (.handleRead :: (threeFires ++ [.reset])) = some q' ∧
    q'.fired.map (fun f => f.1.seqNum) = [1, 0, 2] ∧
    q'.timers.entries.map Prod.fst = [1, 16] ∧ HandleReadSpec q threeFires q' :=
  ⟨_, _, rfl, rfl, rfl, rfl, (timers_fire ⟨_, threeTimers, ⟨0, 0, rfl⟩, rfl⟩).2.2.2.2.2
    threeFires _ rfl (by simp [threeFires]) rfl⟩

end TimerQueue

end Polly
