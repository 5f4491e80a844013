import Polly.Poller

/-!
# PollerReady — from poll(2) to the list of active channels (`Poller::Poll`)

poll(2) writes the `revents` of every entry of `pollfds_` and returns how many are not zero;
`fillActiveChannels` walks the table, looks the ready descriptors up in `channels_` and stops as
soon as it has seen as many as poll(2) announced.  A state of a poller is one that calls of
`UpdateChannel` and of `Poll` lead to from an empty one (`Reachable`).

* `fillLoop_frame`: the walk only writes `revents_`, and only adds channels of the map.
* `fill_complete`: if the count is right, the walk adds exactly the channels of the ready entries,
  in the order of the table, and its assertions hold.
-/

namespace Polly.Poller

open Runs

variable {ι : Type*} [DecidableEq ι]

/-- The assertions of `fillActiveChannels`. -/
inductive FillAssert where
  | found | sameFd
  deriving DecidableEq, Repr

/-- `channel->revents(revents)` for channel `i`. -/
def setRevents (p : Poller ι) (i : ι) (revents : BitVec 16) : Poller ι :=
  { p with chan := Function.update p.chan i { p.chan i with revents := revents.signExtend 32 } }

/-- The loop of `fillActiveChannels` over the rest of `pollfds_`. -/
def fillLoop (p : Poller ι) (numEvents : ℤ) (active : List ι) :
    List PollFd → Except FillAssert (Poller ι × List ι)
  | [] => .ok (p, active)
  | it :: rest =>
    if 0 ≤ it.fd ∧ 0 < it.revents.toInt then
      match p.channels it.fd with
      | none => .error .found
      | some i =>
        if (p.chan i).fd ≠ it.fd then .error .sameFd
        else if numEvents - 1 = 0 then .ok (p.setRevents i it.revents, active ++ [i])
        else fillLoop (p.setRevents i it.revents) (numEvents - 1) (active ++ [i]) rest
    else fillLoop p numEvents active rest

/-- `Poller::fillActiveChannels`. -/
def fillActiveChannels (p : Poller ι) (numEvents : ℤ) (active : List ι) :
    Except FillAssert (Poller ι × List ι) := p.fillLoop numEvents active p.pollfds

omit [DecidableEq ι] in
/-- What poll(2) does to the table. -/
def polled (p : Poller ι) (revents : List (BitVec 16)) : Poller ι :=
  { p with pollfds := List.zipWith (fun pfd r => { pfd with revents := r }) p.pollfds revents }

/-- `Poller::Poll`, after poll(2) has returned `numEvents` and the `revents`. -/
def poll (p : Poller ι) (numEvents : ℤ) (revents : List (BitVec 16)) (active : List ι) :
    Except FillAssert (Poller ι × List ι) :=
  if 0 < numEvents then (p.polled revents).fillActiveChannels numEvents active
  else .ok (p.polled revents, active)

/-! ### The states of a poller -/

inductive Act (ι : Type*) where
  | call (c : ι × Interest)
  | poll (numEvents : ℤ) (revents : List (BitVec 16))

/-- Calls and polls; a failed assertion ends the run. -/
def act (p : Poller ι) : Act ι → Option (Poller ι)
  | .call c => step p c
  | .poll numEvents revents =>
    if revents.length = p.pollfds.length then
      (p.poll numEvents revents []).toOption.map Prod.fst
    else none

omit [DecidableEq ι] in
/-- The constructor `Poller(loop)`, whatever channels there are. -/
structure Blank (p : Poller ι) : Prop where
  pollfds : p.pollfds = []
  channels : ∀ fd, p.channels fd = none

abbrev Reachable (p : Poller ι) : Prop := Reach act Blank p

omit [DecidableEq ι] in
/-- The map leads from a descriptor to a channel that has it. -/
def Mapped (p : Poller ι) : Prop := ∀ fd i, p.channels fd = some i → (p.chan i).fd = fd

section Frame

variable {p p' : Poller ι} {numEvents : ℤ} {active active' : List ι} {it : PollFd}
  {rest : List PollFd} {i j : ι} {r : BitVec 16}

theorem setRevents_self :
    (p.setRevents i r).chan i = { p.chan i with revents := r.signExtend 32 } :=
  Function.update_self ..

theorem setRevents_of_ne (h : j ≠ i) : (p.setRevents i r).chan j = p.chan j :=
  Function.update_of_ne h _ _

@[simp] theorem setRevents_fd : ((p.setRevents i r).chan j).fd = (p.chan j).fd := by
  by_cases h : j = i
  · subst h
    rw [setRevents_self]
  · rw [setRevents_of_ne h]

theorem fillLoop_skip (h : ¬(0 ≤ it.fd ∧ 0 < it.revents.toInt)) :
    p.fillLoop numEvents active (it :: rest) = p.fillLoop numEvents active rest := if_neg h

theorem fillLoop_ready (hready : 0 ≤ it.fd ∧ 0 < it.revents.toInt)
    (hget : p.channels it.fd = some i) (hfd : (p.chan i).fd = it.fd) :
    p.fillLoop numEvents active (it :: rest) =
      if numEvents - 1 = 0 then .ok (p.setRevents i it.revents, active ++ [i])
      else (p.setRevents i it.revents).fillLoop (numEvents - 1) (active ++ [i]) rest := by
  rw [fillLoop, if_pos hready]
  simp only [hget, hfd, ne_eq, not_true_eq_false, if_false]

/-- A ready entry passes the assertions only if the map leads to a channel with its descriptor. -/
theorem fillLoop_ready_ok (hready : 0 ≤ it.fd ∧ 0 < it.revents.toInt)
    (h : p.fillLoop numEvents active (it :: rest) = .ok (p', active')) :
    ∃ i, p.channels it.fd = some i ∧ (p.chan i).fd = it.fd := by
  rw [fillLoop, if_pos hready] at h
  cases hget : p.channels it.fd with
  | none => simp [hget] at h
  | some i =>
    simp only [hget] at h
    by_cases hfd : (p.chan i).fd = it.fd
    · exact ⟨i, rfl, hfd⟩
    · rw [if_pos hfd] at h
      cases h

/-- The walk leaves the poller alone but for the `revents_` of channels, and the channels it adds
are in the map. -/
theorem fillLoop_frame (h : p.fillLoop numEvents active rest = .ok (p', active')) :
    p'.pollfds = p.pollfds ∧ p'.channels = p.channels ∧
      (∀ j, ∃ r, p'.chan j = { p.chan j with revents := r }) ∧
      ∀ i ∈ active', i ∈ active ∨ ∃ fd, p.channels fd = some i := by
  induction rest generalizing p numEvents active with
  | nil =>
    cases h
    exact ⟨rfl, rfl, fun j => ⟨_, rfl⟩, fun i hi => Or.inl hi⟩
  | cons it rest ih =>
    by_cases hready : 0 ≤ it.fd ∧ 0 < it.revents.toInt
    · obtain ⟨i, hget, hfd⟩ := fillLoop_ready_ok hready h
      rw [fillLoop_ready hready hget hfd] at h
      have hset : ∀ j, ∃ r,
          (p.setRevents i it.revents).chan j = { p.chan j with revents := r } := by
        intro j
        by_cases hj : j = i
        · subst hj
          exact ⟨_, setRevents_self⟩
        · exact ⟨_, setRevents_of_ne hj⟩
      have hadd : ∀ k ∈ active ++ [i], k ∈ active ∨ ∃ fd, p.channels fd = some k := by
        intro k hk
        rcases List.mem_append.mp hk with hk | hk
        · exact Or.inl hk
        · rw [List.mem_singleton.mp hk]
          exact Or.inr ⟨_, hget⟩
      by_cases hlast : numEvents - 1 = 0
      · rw [if_pos hlast] at h
        cases h
        exact ⟨rfl, rfl, hset, hadd⟩
      · rw [if_neg hlast] at h
        obtain ⟨h₁, h₂, h₃, h₄⟩ := ih h
        refine ⟨h₁, h₂, fun j => ?_, fun k hk => (h₄ k hk).elim (hadd k) Or.inr⟩
        obtain ⟨r, hr⟩ := h₃ j
        obtain ⟨r', hr'⟩ := hset j
        exact ⟨r, by rw [hr, hr']⟩
    · rw [fillLoop_skip hready] at h
      exact ih h

omit [DecidableEq ι] in
theorem polled_fds {revents : List (BitVec 16)} (hlen : revents.length = p.pollfds.length) :
    (p.polled revents).pollfds.map PollFd.fd = p.pollfds.map PollFd.fd := by
  rw [polled, List.map_zipWith, ← List.map_uncurry_zip_eq_zipWith]
  rw [show (Function.uncurry fun (pfd : PollFd) (_ : BitVec 16) => pfd.fd) =
    PollFd.fd ∘ Prod.fst from rfl, ← List.map_map, List.map_fst_zip hlen.ge]

/-- The same for `Poll`; the table keeps its descriptors. -/
theorem poll_frame {revents : List (BitVec 16)} (hlen : revents.length = p.pollfds.length)
    (h : p.poll numEvents revents active = .ok (p', active')) :
    p'.pollfds.map PollFd.fd = p.pollfds.map PollFd.fd ∧ p'.channels = p.channels ∧
      (∀ j, ∃ r, p'.chan j = { p.chan j with revents := r }) ∧
      ∀ i ∈ active', i ∈ active ∨ ∃ fd, p.channels fd = some i := by
  have hfds := polled_fds hlen
  unfold poll at h
  split_ifs at h with hpos
  · obtain ⟨h₁, h₂, h₃, h₄⟩ := fillLoop_frame h
    exact ⟨by rw [h₁, hfds], h₂, h₃, h₄⟩
  · cases h
    exact ⟨hfds, rfl, fun j => ⟨_, rfl⟩, fun i hi => Or.inl hi⟩

/-- A call changes no descriptor. -/
theorem call_fd {op : Interest} (h : call p (i, op) = .ok p') (j : ι) :
    (p'.chan j).fd = (p.chan j).fd := by
  rcases call_cases h with ⟨-, -, rfl⟩ | ⟨-, -, pfd, -, -, hchan, -⟩
  · simp only [added]
    exact update_fd (by simp) j
  · rw [hchan]
    exact update_fd (op.apply_fd _) j

/-- A call adds no key to the map but the channel's own. -/
theorem call_channels {op : Interest} (h : call p (i, op) = .ok p') {fd : ℤ}
    (hj : p'.channels fd = some j) : p.channels fd = some j ∨ fd = (p.chan i).fd ∧ j = i := by
  rcases call_cases h with ⟨-, -, rfl⟩ | ⟨-, -, pfd, -, -, -, ⟨-, hch, -⟩ | ⟨-, hch, -⟩⟩
  · simp only [added] at hj
    by_cases hfd : fd = (p.chan i).fd
    · subst hfd
      rw [Function.update_self] at hj
      exact Or.inr ⟨rfl, (Option.some.inj hj).symm⟩
    · rw [Function.update_of_ne hfd] at hj
      exact Or.inl hj
  · rw [hch] at hj
    exact Or.inl hj
  · rw [hch] at hj
    by_cases hfd : fd = pfd.fd
    · subst hfd
      rw [Function.update_self] at hj
      cases hj
    · rw [Function.update_of_ne hfd] at hj
      exact Or.inl hj

/-- Every entry after a call has the descriptor of an earlier one or of the channel. -/
theorem call_entries {op : Interest} (h : call p (i, op) = .ok p') {fd : ℤ}
    (hfd : fd ∈ p'.pollfds.map PollFd.fd) :
    fd ∈ p.pollfds.map PollFd.fd ∨ fd = (p.chan i).fd := by
  rcases call_cases h with ⟨-, -, rfl⟩ | ⟨-, -, pfd, hpfd, -, -, ⟨-, -, htable⟩ | ⟨-, -, htable⟩⟩
  · simpa [added] using hfd
  · rw [htable] at hfd
    obtain ⟨e, he, rfl⟩ := List.mem_map.mp hfd
    rcases List.mem_or_eq_of_mem_set he with he | rfl
    · exact Or.inl (List.mem_map_of_mem he)
    · exact Or.inl (List.mem_map.mpr ⟨pfd, hpfd, rfl⟩)
  · rw [htable] at hfd
    obtain ⟨e, he, rfl⟩ := List.mem_map.mp hfd
    exact Or.inl (List.mem_map_of_mem (List.mem_of_mem_eraseIdx he))

theorem call_mapped (hm : Mapped p) {op : Interest} (h : call p (i, op) = .ok p') : Mapped p' := by
  intro fd j hj
  rw [call_fd h]
  rcases call_channels h hj with hj | ⟨rfl, rfl⟩
  · exact hm fd j hj
  · rfl

theorem act_poll {revents : List (BitVec 16)} (h : p.act (.poll numEvents revents) = some p') :
    revents.length = p.pollfds.length ∧
      ∃ active, p.poll numEvents revents [] = .ok (p', active) := by
  simp only [act] at h
  split_ifs at h with hlen
  refine ⟨hlen, ?_⟩
  cases hpoll : p.poll numEvents revents [] with
  | error e => simp [hpoll, Except.toOption] at h
  | ok o =>
    simp only [hpoll, Except.toOption, Option.map_some, Option.some.injEq] at h
    exact ⟨o.2, by rw [← h]⟩

theorem poll_mapped (hm : Mapped p) {revents : List (BitVec 16)}
    (hlen : revents.length = p.pollfds.length)
    (h : p.poll numEvents revents active = .ok (p', active')) : Mapped p' := by
  obtain ⟨-, hch, hchan, -⟩ := poll_frame hlen h
  intro fd j hj
  obtain ⟨r, hr⟩ := hchan j
  rw [hch] at hj
  rw [hr]
  exact hm fd j hj

/-- In every state of a poller the map leads to channels with the right descriptor. -/
theorem Reachable.mapped (h : Reachable p) : Mapped p := by
  refine Reach.inv (I := Mapped) ?_ ?_ h
  · intro p hp fd i hi
    rw [hp.channels fd] at hi
    cases hi
  · intro p a p' hm hstep
    cases a with
    | call c => exact call_mapped hm (step_some.mp hstep)
    | poll numEvents revents =>
      obtain ⟨hlen, active, hpoll⟩ := act_poll hstep
      exact poll_mapped hm hlen hpoll

end Frame

/-! ### Completeness -/

section Complete

variable {p : Poller ι} {numEvents : ℤ} {active : List ι}

omit [DecidableEq ι] in
/-- The table and the map are in order: distinct, non-negative descriptors that are the keys. -/
structure Keyed (p : Poller ι) : Prop where
  nodup : (p.pollfds.map PollFd.fd).Nodup
  nonneg : ∀ pfd ∈ p.pollfds, 0 ≤ pfd.fd
  keys : ∀ fd, fd ∈ p.pollfds.map PollFd.fd ↔ (p.channels fd).isSome

/-- The entries poll(2) has reported. -/
def reported (pollfds : List PollFd) : List PollFd :=
  pollfds.filter fun pfd => pfd.revents ≠ 0#16

/-- `p'` and `ready` are what the walk over `pollfds` should make of `p`: the channels of the
reported entries in their order, none of them twice, each with its `revents_`, the other channels
as they were. -/
structure Filled (p p' : Poller ι) (pollfds : List PollFd) (ready : List ι) : Prop where
  exact : ready.map some = (reported pollfds).map fun pfd => p.channels pfd.fd
  nodup : ready.Nodup
  revents : ∀ pfd ∈ reported pollfds, ∀ i, p.channels pfd.fd = some i →
    p'.chan i = { p.chan i with revents := pfd.revents.signExtend 32 }
  others : ∀ i, i ∉ ready → p'.chan i = p.chan i
  pollfds : p'.pollfds = p.pollfds
  channels : p'.channels = p.channels

omit [DecidableEq ι] in
/-- A channel is ready because an entry with its descriptor is. -/
theorem Filled.mem {p' : Poller ι} {pollfds : List PollFd} {ready : List ι} (hm : Mapped p)
    (h : Filled p p' pollfds ready) {i : ι} (hi : i ∈ ready) :
    ∃ pfd ∈ pollfds, pfd.fd = (p.chan i).fd := by
  have hmem : some i ∈ ready.map some := List.mem_map_of_mem hi
  rw [h.exact] at hmem
  obtain ⟨pfd, hpfd, hget⟩ := List.mem_map.mp hmem
  exact ⟨pfd, List.mem_of_mem_filter hpfd, (hm _ _ hget).symm⟩

/-- As a `short` that is not negative, zero is the only value that is not positive. -/
theorem revents_pos {r : BitVec 16} (h : 0 ≤ r.toInt) : 0 < r.toInt ↔ r ≠ 0#16 := by
  have h0 : r.toInt = 0 ↔ r = 0#16 := by
    rw [← BitVec.toInt_inj, BitVec.toInt_zero]
  rw [ne_eq, ← h0]
  omega

theorem reported_skip {it : PollFd} (h : it.revents = 0#16) (rest : List PollFd) :
    reported (it :: rest) = reported rest := List.filter_cons_of_neg (by simpa using h)

theorem reported_cons {it : PollFd} (h : it.revents ≠ 0#16) (rest : List PollFd) :
    reported (it :: rest) = it :: reported rest := List.filter_cons_of_pos (by simpa using h)

theorem Mapped.setRevents (hm : Mapped p) (i : ι) (r : BitVec 16) : Mapped (p.setRevents i r) := by
  intro fd j hj
  rw [setRevents_fd]
  exact hm fd j hj

omit [DecidableEq ι] in
/-- Nothing is left to do: the early exit is harmless. -/
theorem Filled.of_nil {rest : List PollFd} (h : reported rest = []) : Filled p p rest [] where
  exact := by rw [h]; rfl
  nodup := List.nodup_nil
  revents := by rw [h]; exact fun pfd hpfd => absurd hpfd List.not_mem_nil
  others := fun _ _ => rfl
  pollfds := rfl
  channels := rfl

/-- A reported entry is served first, the others after it. -/
theorem Filled.cons (hm : Mapped p) {p' : Poller ι} {it : PollFd} {rest : List PollFd} {i : ι}
    {ready : List ι} (hr : it.revents ≠ 0#16) (hget : p.channels it.fd = some i)
    (hnew : it.fd ∉ rest.map PollFd.fd) (h : Filled (p.setRevents i it.revents) p' rest ready) :
    Filled p p' (it :: rest) (i :: ready) := by
  -- the descriptor of `it` does not come again, so neither does its channel
  have hi : i ∉ ready := by
    intro hi
    obtain ⟨pfd, hpfd, hfd⟩ := h.mem (hm.setRevents i it.revents) hi
    rw [setRevents_fd, hm _ _ hget] at hfd
    exact hnew (List.mem_map.mpr ⟨pfd, hpfd, hfd⟩)
  refine ⟨?_, List.nodup_cons.mpr ⟨hi, h.nodup⟩, ?_, ?_, h.pollfds, h.channels⟩
  · rw [reported_cons hr, List.map_cons, List.map_cons, hget, h.exact]
    rfl
  · rw [reported_cons hr, List.forall_mem_cons]
    constructor
    · intro j hj
      rw [hget] at hj
      cases hj
      rw [h.others i hi, setRevents_self]
    · intro pfd hpfd j hj
      have hne : j ≠ i := by
        rintro rfl
        have hfd := (hm _ _ hj).symm.trans (hm _ _ hget)
        exact hnew (List.mem_map.mpr ⟨pfd, List.mem_of_mem_filter hpfd, hfd⟩)
      rw [h.revents pfd hpfd j hj, setRevents_of_ne hne]
  · intro j hj
    rw [List.mem_cons, not_or] at hj
    rw [h.others j hj.2, setRevents_of_ne hj.1]

/-- **The walk**, started with the number of reported entries that are left. -/
theorem fillLoop_complete (hm : Mapped p) {rest : List PollFd}
    (hnd : (rest.map PollFd.fd).Nodup) (hnonneg : ∀ pfd ∈ rest, 0 ≤ pfd.fd)
    (hkeys : ∀ pfd ∈ rest, (p.channels pfd.fd).isSome) (hrev : ∀ pfd ∈ rest, 0 ≤ pfd.revents.toInt)
    (hnum : numEvents = (reported rest).length) (hpos : 0 < numEvents) :
    ∃ p' ready, p.fillLoop numEvents active rest = .ok (p', active ++ ready) ∧
      Filled p p' rest ready := by
  induction rest generalizing p numEvents active with
  | nil =>
    rw [hnum] at hpos
    cases hpos
  | cons it rest ih =>
    rw [List.map_cons, List.nodup_cons] at hnd
    rw [List.forall_mem_cons] at hnonneg hkeys hrev
    by_cases hr : it.revents = 0#16
    · have hnot : ¬(0 ≤ it.fd ∧ 0 < it.revents.toInt) := fun h =>
        (revents_pos hrev.1).mp h.2 hr
      rw [reported_skip hr] at hnum
      obtain ⟨p', ready, hfill, hF⟩ := ih hm hnd.2 hnonneg.2 hkeys.2 hrev.2 hnum hpos
      refine ⟨p', ready, by rw [fillLoop_skip hnot, hfill], ?_, hF.nodup, ?_, hF.others, hF.pollfds,
        hF.channels⟩
      · rw [reported_skip hr]
        exact hF.exact
      · rw [reported_skip hr]
        exact hF.revents
    · have hready : 0 ≤ it.fd ∧ 0 < it.revents.toInt := ⟨hnonneg.1, (revents_pos hrev.1).mpr hr⟩
      obtain ⟨i, hget⟩ := Option.isSome_iff_exists.mp hkeys.1
      rw [fillLoop_ready hready hget (hm _ _ hget)]
      rw [reported_cons hr, List.length_cons] at hnum
      by_cases hlast : numEvents - 1 = 0
      · have hnil : reported rest = [] := List.length_eq_zero_iff.mp (by omega)
        rw [if_pos hlast]
        exact ⟨_, [i], rfl, Filled.cons hm hr hget hnd.1 (Filled.of_nil hnil)⟩
      · rw [if_neg hlast]
        have hnum₁ : numEvents - 1 = (reported rest).length := by omega
        obtain ⟨p', ready, hfill, hF⟩ : ∃ p' ready, (p.setRevents i it.revents).fillLoop
            (numEvents - 1) (active ++ [i]) rest = .ok (p', active ++ [i] ++ ready) ∧
            Filled (p.setRevents i it.revents) p' rest ready :=
          ih (hm.setRevents i it.revents) hnd.2 hnonneg.2 hkeys.2 hrev.2 hnum₁ (by omega)
        refine ⟨p', i :: ready, ?_, Filled.cons hm hr hget hnd.1 hF⟩
        rw [hfill, List.append_assoc, List.singleton_append]

omit [DecidableEq ι] in
/-- poll(2) does not touch what `Keyed` is about. -/
theorem Keyed.polled (h : Keyed p) {revents : List (BitVec 16)}
    (hlen : revents.length = p.pollfds.length) : Keyed (p.polled revents) := by
  have hfds := polled_fds hlen
  refine ⟨by rw [hfds]; exact h.nodup, fun pfd hpfd => ?_, fun fd => by rw [hfds]; exact h.keys fd⟩
  have hmem : pfd.fd ∈ (p.polled revents).pollfds.map PollFd.fd := List.mem_map_of_mem hpfd
  rw [hfds] at hmem
  obtain ⟨pfd', hpfd', heq⟩ := List.mem_map.mp hmem
  rw [← heq]
  exact h.nonneg pfd' hpfd'

omit [DecidableEq ι] in
/-- After poll(2) the table holds what it reported. -/
theorem polled_revents {revents : List (BitVec 16)} (hlen : revents.length = p.pollfds.length) :
    (p.polled revents).pollfds.map PollFd.revents = revents := by
  rw [polled, List.map_zipWith, ← List.map_uncurry_zip_eq_zipWith]
  rw [show (Function.uncurry fun (_ : PollFd) (r : BitVec 16) => r) = Prod.snd from rfl,
    List.map_snd_zip hlen.le]

theorem length_reported (pollfds : List PollFd) : (reported pollfds).length =
    ((pollfds.map PollFd.revents).filter (· ≠ 0#16)).length := by
  rw [List.filter_map, List.length_map]
  rfl

/-- The walk over a table in order, after a poll(2) that counts the reported entries. -/
theorem Keyed.fill (hkeyed : Keyed p) (hm : Mapped p) {revents : List (BitVec 16)}
    (hlen : revents.length = p.pollfds.length) (hrev : ∀ r ∈ revents, 0 ≤ r.toInt)
    (hnum : numEvents = (revents.filter (· ≠ 0#16)).length) (hpos : 0 < numEvents) :
    ∃ p' ready, (p.polled revents).fillActiveChannels numEvents active = .ok (p', active ++ ready) ∧
      Filled (p.polled revents) p' (p.polled revents).pollfds ready := by
  have hK := hkeyed.polled hlen
  have hmap := polled_revents hlen
  have hm' : Mapped (p.polled revents) := hm
  refine fillLoop_complete hm' hK.nodup hK.nonneg (fun pfd hpfd => ?_) (fun pfd hpfd => ?_) ?_ hpos
  · exact (hK.keys pfd.fd).mp (List.mem_map_of_mem hpfd)
  · refine hrev _ ?_
    rw [← hmap]
    exact List.mem_map_of_mem hpfd
  · rw [length_reported, hmap, hnum]

/-- **The list of active channels is complete.**  In every state of a poller whose table and map
are in order, and for every outcome of poll(2) that counts the reported entries, the assertions of
`fillActiveChannels` hold, and it appends the channels of the reported entries in the order of the
table, none left out and none twice, sets their `revents_` and changes nothing else. -/
theorem fill_complete (hp : Reachable p) (hkeyed : Keyed p) {revents : List (BitVec 16)}
    (hlen : revents.length = p.pollfds.length) (hrev : ∀ r ∈ revents, 0 ≤ r.toInt)
    (hnum : numEvents = (revents.filter (· ≠ 0#16)).length) (hpos : 0 < numEvents)
    (active : List ι) :
    ∃ p' ready, (p.polled revents).fillActiveChannels numEvents active = .ok (p', active ++ ready) ∧
      Filled (p.polled revents) p' (p.polled revents).pollfds ready :=
  hkeyed.fill hp.mapped hlen hrev hnum hpos

theorem pairReading_reachable : Reachable pairReading :=
  ⟨pair, [.call (0, .enableReading), .call (1, .enableReading)], ⟨rfl, fun _ => rfl⟩,
    run_cons_some.mpr ⟨_, step_some.mpr pair_call_first,
      run_cons_some.mpr ⟨_, step_some.mpr pair_call_second, rfl⟩⟩⟩

/-- Only the second of two channels is reported. -/
theorem fill_complete_pair :
    ∃ p' ready, (pairReading.polled [0, 1]).fillActiveChannels 1 [] = .ok (p', [] ++ ready) ∧
      Filled (pairReading.polled [0, 1]) p' (pairReading.polled [0, 1]).pollfds ready := by
  have hlen : ([0, 1] : List (BitVec 16)).length = pairReading.pollfds.length := by decide
  have hrev : ∀ r ∈ ([0, 1] : List (BitVec 16)), 0 ≤ r.toInt := by simp
  exact fill_complete pairReading_reachable ⟨by decide, by decide, pairReading_inv.keys⟩ hlen hrev
    (by decide) (by decide) []

end Complete

end Polly.Poller
