import Polly.PollerReady

/-!
# PollerTable — what the assertions of `UpdateChannel` guarantee (`net/poller.cc`)

Erasing an entry of `pollfds_` moves the entries behind it, and the cached positions of their
channels are stale from then on.  The assertions notice: a call of such a channel fails, and no call
ever touches the entry of another channel.

* `Exact`: table and map are exactly the channels that have been registered and have a mask,
  whatever the cached positions are.
* `table_exact`: so it is after every run of interest calls and polls that passes the assertions.
* `shifted_forever`: a channel behind a removed one stays registered for good, and every later call
  of it fails.
-/

namespace Polly.Poller

open Runs

variable {ι : Type*} [DecidableEq ι]

/-- `Channel::update()` after the mask of channel `i` has become `mask`. -/
def update (p : Poller ι) (i : ι) (mask : BitVec 32) : Except UpdateAssert (Poller ι) :=
  updateChannel { p with chan := Function.update p.chan i { p.chan i with events := mask } } i

variable {p p' : Poller ι} {i j : ι} {op : Interest} {mask : BitVec 32}

theorem call_eq_update : call p (i, op) = update p i (op.apply (p.chan i)).events := by
  have hop : op.apply (p.chan i) = { p.chan i with events := (op.apply (p.chan i)).events } := by
    cases op <;> rfl
  rw [call, update, ← hop]

/-- What `UpdateChannel` does when no assertion fails. -/
theorem update_cases (h : update p i mask = .ok p') :
    ((p.chan i).index < 0 ∧ p.channels (p.chan i).fd = none ∧
      p'.chan = Function.update p.chan i
        { p.chan i with events := mask, index := p.pollfds.length } ∧
      p'.channels = Function.update p.channels (p.chan i).fd (some i) ∧
      p'.pollfds = p.pollfds ++ [⟨(p.chan i).fd, mask.setWidth 16, 0⟩]) ∨
    (0 ≤ (p.chan i).index ∧ p.channels (p.chan i).fd = some i ∧
      p'.chan = Function.update p.chan i { p.chan i with events := mask } ∧
      ∃ pfd, p.pollfds[(p.chan i).index.toNat]? = some pfd ∧
        (pfd.fd = (p.chan i).fd ∨ pfd.fd = -1) ∧
        ((mask ≠ 0 ∧ p'.channels = p.channels ∧
            p'.pollfds = p.pollfds.set (p.chan i).index.toNat ⟨pfd.fd, mask.setWidth 16, 0⟩) ∨
          (mask = 0 ∧ p'.channels = Function.update p.channels pfd.fd none ∧
            p'.pollfds = p.pollfds.eraseIdx (p.chan i).index.toNat))) := by
  by_cases hi : (p.chan i).index < 0
  · left
    simp only [update, updateChannel, Function.update_self, if_pos hi] at h
    split_ifs at h with hnone
    cases h
    exact ⟨hi, by simpa using hnone, by simp, rfl, rfl⟩
  · right
    simp only [update, updateChannel, Function.update_self, if_neg hi] at h
    refine ⟨not_lt.mp hi, ?_⟩
    cases hget : p.pollfds[(p.chan i).index.toNat]? with
    | none =>
      simp only [hget] at h
      split_ifs at h
    | some pfd =>
      simp only [hget] at h
      split_ifs at h with hnone hsame hfd hev
      all_goals
        cases h
        refine ⟨not_ne_iff.mp hsame, rfl, pfd, rfl, hfd, ?_⟩
      · exact Or.inr ⟨by simpa [Channel.isNoneEvent, kNoneEvent] using hev, rfl,
          List.eraseIdx_set_eq ..⟩
      · exact Or.inl ⟨by simpa [Channel.isNoneEvent, kNoneEvent] using hev, rfl, rfl⟩

/-! ### Table and map -/

/-- The table and the map are exactly the channels that have a position and a mask. -/
structure Exact (p : Poller ι) : Prop where
  nonneg : ∀ i, 0 ≤ (p.chan i).fd
  masks : ∀ i, IsMask (p.chan i).events
  nodup : (p.pollfds.map PollFd.fd).Nodup
  keys : ∀ fd, fd ∈ p.pollfds.map PollFd.fd ↔ (p.channels fd).isSome
  mapped : ∀ fd i, p.channels fd = some i → (p.chan i).fd = fd
  live : ∀ i, p.channels (p.chan i).fd = some i ↔ 0 ≤ (p.chan i).index ∧ (p.chan i).events ≠ 0
  entries : ∀ pfd ∈ p.pollfds, ∀ i, p.channels pfd.fd = some i →
    pfd.events = (p.chan i).events.setWidth 16

omit [DecidableEq ι] in
theorem Exact.keyed (h : Exact p) : Keyed p := by
  refine ⟨h.nodup, fun pfd hpfd => ?_, h.keys⟩
  obtain ⟨i, hi⟩ := Option.isSome_iff_exists.mp ((h.keys pfd.fd).mp (List.mem_map_of_mem hpfd))
  rw [← h.mapped _ i hi]
  exact h.nonneg i

/-- Replacing a channel object by one with the same descriptor and some mask. -/
theorem Exact.replace (h : Exact p) {ch : Channel} (hchan : p'.chan = Function.update p.chan i ch)
    (hfd : ch.fd = (p.chan i).fd) (hmask : IsMask ch.events) :
    (∀ j, (p'.chan j).fd = (p.chan j).fd) ∧ (∀ j, 0 ≤ (p'.chan j).fd) ∧
      ∀ j, IsMask (p'.chan j).events := by
  have hfds : ∀ j, (p'.chan j).fd = (p.chan j).fd := by
    rw [hchan]
    exact update_fd hfd
  refine ⟨hfds, fun j => by rw [hfds]; exact h.nonneg j, ?_⟩
  rw [hchan]
  exact (Function.forall_update_iff p.chan fun _ ch => IsMask ch.events).mpr
    ⟨hmask, fun j _ => h.masks j⟩

theorem exact_added (h : Exact p) (hmask : IsMask mask) (hne : mask ≠ 0)
    (hnone : p.channels (p.chan i).fd = none)
    (hchan : p'.chan = Function.update p.chan i
      { p.chan i with events := mask, index := p.pollfds.length })
    (hchannels : p'.channels = Function.update p.channels (p.chan i).fd (some i))
    (hpollfds : p'.pollfds = p.pollfds ++ [⟨(p.chan i).fd, mask.setWidth 16, 0⟩]) : Exact p' := by
  obtain ⟨hfd, hnonneg, hmasks⟩ := h.replace hchan rfl hmask
  have hnew : (p.chan i).fd ∉ p.pollfds.map PollFd.fd := by
    rw [h.keys, hnone]
    simp
  refine ⟨hnonneg, hmasks, ?_, fun fd => ?_, fun fd j hj => ?_, fun j => ?_, ?_⟩
  · rw [hpollfds, List.map_append]
    refine List.Nodup.append h.nodup (List.nodup_singleton _) ?_
    rw [List.map_singleton, List.disjoint_singleton]
    exact hnew
  · rw [hpollfds, hchannels, List.map_append, List.mem_append, h.keys]
    by_cases hfd' : fd = (p.chan i).fd
    · simp [hfd']
    · simp [hfd']
  · rw [hfd]
    rw [hchannels] at hj
    by_cases hfd' : fd = (p.chan i).fd
    · rw [hfd', Function.update_self] at hj
      cases hj
      exact hfd'.symm
    · rw [Function.update_of_ne hfd'] at hj
      exact h.mapped fd j hj
  · rw [hfd, hchannels, hchan]
    by_cases hj : j = i
    · subst hj
      rw [Function.update_self, Function.update_self]
      exact iff_of_true rfl ⟨Int.natCast_nonneg _, hne⟩
    · rw [Function.update_of_ne hj, ← h.live j]
      by_cases hfd' : (p.chan j).fd = (p.chan i).fd
      · rw [hfd', Function.update_self, hnone]
        exact iff_of_false (fun h => hj (Option.some.inj h).symm) (by simp)
      · rw [Function.update_of_ne hfd']
  · intro pfd hpfd j hj
    rw [hpollfds, List.mem_append, List.mem_singleton] at hpfd
    rw [hchannels] at hj
    rcases hpfd with hpfd | rfl
    · have hfd' : pfd.fd ≠ (p.chan i).fd := by
        intro heq
        exact hnew (heq ▸ List.mem_map_of_mem hpfd)
      rw [Function.update_of_ne hfd'] at hj
      have hji : j ≠ i := by
        rintro rfl
        exact hfd' (h.mapped _ _ hj).symm
      rw [hchan, Function.update_of_ne hji]
      exact h.entries pfd hpfd j hj
    · rw [Function.update_self] at hj
      cases hj
      rw [hchan, Function.update_self]

theorem getElem?_fds {pollfds : List PollFd} {k : ℕ} {pfd : PollFd}
    (hget : pollfds[k]? = some pfd) : (pollfds.map PollFd.fd)[k]? = some pfd.fd := by
  rw [List.getElem?_map, hget, Option.map_some]

theorem eq_of_getElem?_fds {fds : List ℤ} {k l : ℕ} {fd : ℤ} (hnd : fds.Nodup)
    (hk : fds[k]? = some fd) (hl : fds[l]? = some fd) : k = l :=
  (List.getElem?_inj (List.getElem?_eq_some_iff.mp hk).1 hnd).mp (hk.trans hl.symm)

theorem exact_changed (h : Exact p) (hmask : IsMask mask) (hne : mask ≠ 0)
    (hi : 0 ≤ (p.chan i).index) (hmap : p.channels (p.chan i).fd = some i) {pfd : PollFd}
    (hget : p.pollfds[(p.chan i).index.toNat]? = some pfd) (hown : pfd.fd = (p.chan i).fd)
    (hchan : p'.chan = Function.update p.chan i { p.chan i with events := mask })
    (hchannels : p'.channels = p.channels)
    (hpollfds : p'.pollfds =
      p.pollfds.set (p.chan i).index.toNat ⟨pfd.fd, mask.setWidth 16, 0⟩) : Exact p' := by
  obtain ⟨hfd, hnonneg, hmasks⟩ := h.replace hchan rfl hmask
  have hfds : p'.pollfds.map PollFd.fd = p.pollfds.map PollFd.fd := by
    obtain ⟨hlt, hget'⟩ := List.getElem?_eq_some_iff.mp hget
    rw [hpollfds, List.map_set, ← hget', ← List.getElem_map PollFd.fd (h := by simpa using hlt),
      List.set_getElem_self]
  refine ⟨hnonneg, hmasks, ?_, fun fd => ?_, fun fd j hj => ?_, fun j => ?_, ?_⟩
  · rw [hfds]
    exact h.nodup
  · rw [hfds, hchannels]
    exact h.keys fd
  · rw [hfd]
    rw [hchannels] at hj
    exact h.mapped fd j hj
  · rw [hfd, hchannels, hchan]
    by_cases hj : j = i
    · subst hj
      rw [Function.update_self]
      exact iff_of_true hmap ⟨hi, hne⟩
    · rw [Function.update_of_ne hj]
      exact h.live j
  · intro e he j hj
    rw [hchannels] at hj
    rw [hpollfds] at he
    obtain ⟨k, hk⟩ := List.mem_iff_getElem?.mp he
    by_cases hki : (p.chan i).index.toNat = k
    · subst hki
      rw [List.getElem?_set_self (List.getElem?_eq_some_iff.mp hget).1] at hk
      cases hk
      rw [hown, hmap] at hj
      cases hj
      rw [hchan, Function.update_self]
    · rw [List.getElem?_set_ne hki] at hk
      -- the entry of channel `i` is the one that was replaced
      have hji : j ≠ i := by
        rintro rfl
        have hfd' : e.fd = pfd.fd := by rw [hown, h.mapped _ _ hj]
        exact hki (eq_of_getElem?_fds h.nodup (getElem?_fds hget) (hfd' ▸ getElem?_fds hk))
      rw [hchan, Function.update_of_ne hji]
      exact h.entries e (List.mem_of_getElem? hk) j hj

theorem exact_removed (h : Exact p) (hmap : p.channels (p.chan i).fd = some i) {pfd : PollFd}
    (hget : p.pollfds[(p.chan i).index.toNat]? = some pfd) (hown : pfd.fd = (p.chan i).fd)
    (hchan : p'.chan = Function.update p.chan i { p.chan i with events := 0 })
    (hchannels : p'.channels = Function.update p.channels pfd.fd none)
    (hpollfds : p'.pollfds = p.pollfds.eraseIdx (p.chan i).index.toNat) : Exact p' := by
  obtain ⟨hfd, hnonneg, hmasks⟩ := h.replace hchan rfl (Or.inl rfl)
  have hfds : p'.pollfds.map PollFd.fd = (p.pollfds.map PollFd.fd).erase (p.chan i).fd := by
    obtain ⟨hlt, hget'⟩ := List.getElem?_eq_some_iff.mp (getElem?_fds hget)
    rw [hpollfds, ← List.eraseIdx_map, ← h.nodup.erase_getElem _ hlt, hget', hown]
  have hne : ∀ fd j, p'.channels fd = some j →
      fd ≠ (p.chan i).fd ∧ j ≠ i ∧ p.channels fd = some j := by
    intro fd j hj
    rw [hchannels, hown] at hj
    have hfd' : fd ≠ (p.chan i).fd := by
      rintro rfl
      rw [Function.update_self] at hj
      cases hj
    rw [Function.update_of_ne hfd'] at hj
    refine ⟨hfd', ?_, hj⟩
    rintro rfl
    exact hfd' (h.mapped _ _ hj).symm
  refine ⟨hnonneg, hmasks, ?_, fun fd => ?_, fun fd j hj => ?_, fun j => ?_, ?_⟩
  · rw [hfds]
    exact h.nodup.erase _
  · rw [hfds, h.nodup.mem_erase_iff, h.keys, hchannels, hown]
    by_cases hfd' : fd = (p.chan i).fd
    · simp [hfd']
    · simp [hfd']
  · rw [hfd]
    exact h.mapped fd j (hne fd j hj).2.2
  · rw [hfd]
    by_cases hj : j = i
    · subst hj
      rw [hchan, Function.update_self]
      refine iff_of_false (fun hmap' => (hne _ _ hmap').1 rfl) fun hl => hl.2 rfl
    · rw [hchan, Function.update_of_ne hj, ← h.live j, hchannels, hown]
      by_cases hfd' : (p.chan j).fd = (p.chan i).fd
      · rw [hfd', Function.update_self, hmap]
        exact iff_of_false (by simp) fun heq => hj (Option.some.inj heq).symm
      · rw [Function.update_of_ne hfd']
  · intro e he j hj
    obtain ⟨-, hji, hj⟩ := hne _ _ hj
    rw [hpollfds] at he
    rw [hchan, Function.update_of_ne hji]
    exact h.entries e (List.mem_of_mem_eraseIdx he) j hj

omit [DecidableEq ι] in
/-- The entry a channel finds at its position is its own. -/
theorem Exact.own_entry (h : Exact p) {pfd : PollFd} (hmem : pfd ∈ p.pollfds)
    (hfd : pfd.fd = (p.chan i).fd ∨ pfd.fd = -1) : pfd.fd = (p.chan i).fd := by
  refine hfd.resolve_right fun hneg => ?_
  obtain ⟨j, hj⟩ := Option.isSome_iff_exists.mp ((h.keys _).mp (List.mem_map_of_mem hmem))
  have hpos := h.nonneg j
  rw [h.mapped _ _ hj, hneg] at hpos
  omega

/-- **One `UpdateChannel`** that passes its assertions adds, updates or removes the caller's own
entry, as its mask says. -/
theorem update_exact (h : Exact p) (hmask : IsMask mask)
    (hfirst : (p.chan i).index < 0 → mask ≠ 0) (hu : update p i mask = .ok p') :
    Exact p' ∧ p'.channels =
      Function.update p.channels (p.chan i).fd (if mask = 0 then none else some i) := by
  rcases update_cases hu with ⟨hi, hnone, hchan, hchannels, hpollfds⟩ |
    ⟨hi, hmap, hchan, pfd, hget, hfd, hcases⟩
  · have hne := hfirst hi
    rw [if_neg hne]
    exact ⟨exact_added h hmask hne hnone hchan hchannels hpollfds, hchannels⟩
  · have hown := h.own_entry (List.mem_of_getElem? hget) hfd
    rcases hcases with ⟨hne, hchannels, hpollfds⟩ | ⟨rfl, hchannels, hpollfds⟩
    · rw [if_neg hne, hchannels, ← hmap, Function.update_eq_self]
      exact ⟨exact_changed h hmask hne hi hmap hget hown hchan hchannels hpollfds, rfl⟩
    · rw [if_pos rfl, ← hown]
      exact ⟨exact_removed h hmap hget hown hchan hchannels hpollfds, hchannels⟩

/-! ### Polls -/

theorem poll_pollfds {numEvents : ℤ} {revents : List (BitVec 16)} {active active' : List ι}
    (h : p.poll numEvents revents active = .ok (p', active')) :
    p'.pollfds = (p.polled revents).pollfds := by
  unfold poll at h
  split_ifs at h
  · exact (fillLoop_frame h).1
  · cases h
    rfl

omit [DecidableEq ι] in
theorem mem_polled {revents : List (BitVec 16)} {e : PollFd}
    (h : e ∈ (p.polled revents).pollfds) : ∃ pfd ∈ p.pollfds, e.fd = pfd.fd ∧
      e.events = pfd.events := by
  obtain ⟨k, hk⟩ := List.mem_iff_getElem?.mp h
  rw [polled, List.getElem?_zipWith] at hk
  split at hk
  · rename_i pfd r hpfd hr
    cases hk
    exact ⟨pfd, List.mem_of_getElem? hpfd, rfl, rfl⟩
  · cases hk

/-- A poll changes reported events only. -/
theorem poll_exact (h : Exact p) {numEvents : ℤ} {revents : List (BitVec 16)}
    {active active' : List ι} (hlen : revents.length = p.pollfds.length)
    (hp : p.poll numEvents revents active = .ok (p', active')) : Exact p' := by
  obtain ⟨hfds, hchannels, hchan, -⟩ := poll_frame hlen hp
  have hfd : ∀ j, (p'.chan j).fd = (p.chan j).fd ∧ (p'.chan j).events = (p.chan j).events ∧
      (p'.chan j).index = (p.chan j).index := by
    intro j
    obtain ⟨r, hr⟩ := hchan j
    rw [hr]
    exact ⟨rfl, rfl, rfl⟩
  refine ⟨fun j => ?_, fun j => ?_, ?_, fun fd => ?_, fun fd j hj => ?_, fun j => ?_, ?_⟩
  · rw [(hfd j).1]
    exact h.nonneg j
  · rw [(hfd j).2.1]
    exact h.masks j
  · rw [hfds]
    exact h.nodup
  · rw [hfds, hchannels]
    exact h.keys fd
  · rw [(hfd j).1]
    rw [hchannels] at hj
    exact h.mapped fd j hj
  · rw [(hfd j).1, (hfd j).2.1, (hfd j).2.2, hchannels]
    exact h.live j
  · intro e he j hj
    rw [poll_pollfds hp] at he
    obtain ⟨pfd, hpfd, hefd, hev⟩ := mem_polled he
    rw [hchannels, hefd] at hj
    rw [hev, (hfd j).2.1]
    exact h.entries pfd hpfd j hj

/-! ### Runs -/

/-- The first call of a channel asks for something, as every first call of the library does. -/
def Enables (p : Poller ι) : Act ι → Prop
  | .call c => (p.chan c.1).index < 0 → (c.2.apply (p.chan c.1)).events ≠ 0
  | .poll _ _ => True

instance (p : Poller ι) : (a : Act ι) → Decidable (Enables p a)
  | .call c =>
    inferInstanceAs (Decidable ((p.chan c.1).index < 0 → (c.2.apply (p.chan c.1)).events ≠ 0))
  | .poll _ _ => inferInstanceAs (Decidable True)

/-- Before any call: an empty poller, and channels as their constructor leaves them. -/
structure Unused (p : Poller ι) : Prop where
  chan : ∀ i, p.chan i = Channel.new (p.chan i).fd
  nonneg : ∀ i, 0 ≤ (p.chan i).fd
  pollfds : p.pollfds = []
  channels : ∀ fd, p.channels fd = none

omit [DecidableEq ι] in
theorem Unused.exact (h : Unused p) : Exact p where
  nonneg := h.nonneg
  masks := fun i => by rw [h.chan i]; exact Or.inl rfl
  nodup := by rw [h.pollfds]; exact List.nodup_nil
  keys := fun fd => by simp [h.pollfds, h.channels]
  mapped := fun fd i hi => by rw [h.channels] at hi; cases hi
  live := fun i => by rw [h.channels, h.chan i]; simp [Channel.new]
  entries := fun pfd hpfd => by rw [h.pollfds] at hpfd; cases hpfd

theorem act_exact {a : Act ι} (h : Exact p) (ha : Enables p a) (hp : act p a = some p') :
    Exact p' := by
  cases a with
  | call c =>
    obtain ⟨i, op⟩ := c
    have hcall := step_some.mp hp
    rw [call_eq_update] at hcall
    exact (update_exact h (op.apply_isMask (h.masks i)) ha hcall).1
  | poll numEvents revents =>
    obtain ⟨hlen, active, hpoll⟩ := act_poll hp
    exact poll_exact h hlen hpoll

theorem run_exact {as : List (Act ι)} (h : Exact p) (has : Along act Enables p as)
    (hrun : run act p as = some p') : Exact p' :=
  run_inv_along (fun _ _ _ => act_exact) hrun has h

/-- **The table is exact.**  After every run of interest calls and polls that passes the assertions,
on any channels, with whatever stale positions: a descriptor is mapped to the channel that has it,
has been registered and has a mask, and the table asks the kernel for exactly the masks of these
channels, once each. -/
theorem table_exact {as : List (Act ι)} (h : Unused p) (has : Along act Enables p as)
    (hrun : run act p as = some p') :
    (∀ fd i, p'.channels fd = some i ↔
      (p'.chan i).fd = fd ∧ 0 ≤ (p'.chan i).index ∧ (p'.chan i).events ≠ 0) ∧
    (p'.pollfds.map PollFd.fd).Nodup ∧
    ∀ fd mask, (∃ e ∈ p'.pollfds, e.fd = fd ∧ e.events.signExtend 32 = mask) ↔
      ∃ i, p'.channels fd = some i ∧ (p'.chan i).events = mask := by
  have hI := run_exact h.exact has hrun
  have hcast : ∀ i, ((p'.chan i).events.setWidth 16).signExtend 32 = (p'.chan i).events :=
    fun i => (hI.masks i).cast_short
  refine ⟨fun fd i => ?_, hI.nodup, fun fd mask => ?_⟩
  · constructor
    · intro hi
      have hfd := hI.mapped fd i hi
      rw [← hfd] at hi
      exact ⟨hfd, (hI.live i).mp hi⟩
    · rintro ⟨rfl, hl⟩
      exact (hI.live i).mpr hl
  · constructor
    · rintro ⟨e, he, rfl, rfl⟩
      obtain ⟨i, hi⟩ := Option.isSome_iff_exists.mp ((hI.keys _).mp (List.mem_map_of_mem he))
      exact ⟨i, hi, by rw [hI.entries e he i hi, hcast]⟩
    · rintro ⟨i, hi, rfl⟩
      obtain ⟨e, he, rfl⟩ := List.mem_map.mp ((hI.keys fd).mpr (by rw [hi]; rfl))
      exact ⟨e, he, rfl, by rw [hI.entries e he i hi, hcast]⟩

theorem pair_unused : Unused pair where
  chan _ := rfl
  nonneg := by decide
  pollfds := rfl
  channels _ := rfl

/-- Both channels of `pair` are enabled, the second one is reported, and the first one leaves. -/
def leaving : List (Act (Fin 2)) :=
  [.call (⟨0, Nat.two_pos⟩, .enableReading), .call (⟨1, Nat.one_lt_two⟩, .enableReading),
    .poll 1 [0, 1], .call (⟨0, Nat.two_pos⟩, .disbaleAll)]

theorem table_exact_leaving : ∃ p' : Poller (Fin 2), run act pair leaving = some p' ∧
    (∀ fd i, p'.channels fd = some i ↔
      (p'.chan i).fd = fd ∧ 0 ≤ (p'.chan i).index ∧ (p'.chan i).events ≠ 0) ∧
    (p'.pollfds.map PollFd.fd).Nodup ∧
    ∀ fd mask, (∃ e ∈ p'.pollfds, e.fd = fd ∧ e.events.signExtend 32 = mask) ↔
      ∃ i, p'.channels fd = some i ∧ (p'.chan i).events = mask := by
  have hsome : (run act pair leaving).isSome = true := by decide
  obtain ⟨p', hp'⟩ := Option.isSome_iff_exists.mp hsome
  exact ⟨p', hp', table_exact pair_unused (by decide) hp'⟩

/-! ### Positions -/

/-- The table of descriptors. -/
def fds (p : Poller ι) : List ℤ := p.pollfds.map PollFd.fd

/-- The calls of other channels leave a registered channel alone, and its entry where it is; only a
removal in front of it moves the entry, by one. -/
theorem update_position (h : Exact p) (hu : update p i mask = .ok p') (hji : j ≠ i)
    (hj : p.channels (p.chan j).fd = some j) {k : ℕ} (hk : p.fds[k]? = some (p.chan j).fd) :
    p'.chan j = p.chan j ∧ p'.channels (p.chan j).fd = some j ∧
      ∃ k', p'.fds[k']? = some (p.chan j).fd ∧
        if mask = 0 ∧ 0 ≤ (p.chan i).index ∧ (p.chan i).index < k then k' + 1 = k else k' = k := by
  rcases update_cases hu with ⟨hi, hnone, hchan, hchannels, hpollfds⟩ |
    ⟨hi, hmap, hchan, pfd, hget, hfd, hcases⟩
  · have hne : (p.chan j).fd ≠ (p.chan i).fd := by
      intro heq
      rw [heq, hnone] at hj
      cases hj
    refine ⟨by rw [hchan, Function.update_of_ne hji], ?_, k, ?_, by rw [if_neg]; omega⟩
    · rw [hchannels, Function.update_of_ne hne, hj]
    · rw [fds, hpollfds, List.map_append, List.getElem?_append_left]
      · exact hk
      · exact (List.getElem?_eq_some_iff.mp hk).1
  · have hown := h.own_entry (List.mem_of_getElem? hget) hfd
    have hne : (p.chan j).fd ≠ (p.chan i).fd := by
      intro heq
      rw [heq, hmap] at hj
      exact hji (Option.some.inj hj).symm
    have hki : (p.chan i).index.toNat ≠ k := by
      rintro rfl
      have hsame := (getElem?_fds hget).symm.trans hk
      exact hne ((Option.some.inj hsame).symm.trans hown)
    refine ⟨by rw [hchan, Function.update_of_ne hji], ?_⟩
    rcases hcases with ⟨hmask, hchannels, hpollfds⟩ | ⟨rfl, hchannels, hpollfds⟩
    · refine ⟨by rw [hchannels, hj], k, ?_, by rw [if_neg (fun h0 => hmask h0.1)]⟩
      rw [fds, hpollfds, List.map_set, List.getElem?_set_ne hki]
      exact hk
    · refine ⟨by rw [hchannels, hown, Function.update_of_ne hne, hj], ?_⟩
      rw [fds, hpollfds, ← List.eraseIdx_map]
      rcases Nat.lt_or_gt_of_ne hki with hlt | hlt
      · refine ⟨k - 1, ?_, by rw [if_pos ⟨rfl, hi, by omega⟩]; omega⟩
        rw [List.getElem?_eraseIdx_of_ge (by omega), Nat.sub_add_cancel (by omega)]
        exact hk
      · refine ⟨k, ?_, by rw [if_neg]; omega⟩
        rw [List.getElem?_eraseIdx_of_lt hlt]
        exact hk

/-- The cached position of a channel is that of its entry. -/
def InPlace (p : Poller ι) (j : ι) : Prop :=
  0 ≤ (p.chan j).index ∧ p.fds[(p.chan j).index.toNat]? = some (p.chan j).fd

/-- No registered channel is in front of its entry. -/
def Cached (p : Poller ι) : Prop :=
  ∀ j, p.channels (p.chan j).fd = some j →
    ∃ k : ℕ, p.fds[k]? = some (p.chan j).fd ∧ (k : ℤ) ≤ (p.chan j).index

omit [DecidableEq ι] in
theorem inPlace_iff (h : p.fds.Nodup) {k : ℕ} (hk : p.fds[k]? = some (p.chan j).fd) :
    InPlace p j ↔ (k : ℤ) = (p.chan j).index := by
  constructor
  · rintro ⟨hi, hget⟩
    have := eq_of_getElem?_fds h hk hget
    omega
  · intro heq
    refine ⟨by omega, ?_⟩
    rw [← heq, Int.toNat_natCast]
    exact hk

/-- A registered channel passes the assertions exactly if it is in place. -/
theorem update_ok_iff (h : Exact p) (hj : p.channels (p.chan j).fd = some j) :
    (∃ p', update p j mask = .ok p') ↔ InPlace p j := by
  have hi : 0 ≤ (p.chan j).index := ((h.live j).mp hj).1
  constructor
  · rintro ⟨p', hu⟩
    rcases update_cases hu with ⟨hneg, -⟩ | ⟨-, -, -, pfd, hget, hfd, -⟩
    · omega
    · exact ⟨hi, h.own_entry (List.mem_of_getElem? hget) hfd ▸ getElem?_fds hget⟩
  · rintro ⟨-, hget⟩
    rw [fds, List.getElem?_map] at hget
    obtain ⟨pfd, hpfd, hfd⟩ := Option.map_eq_some_iff.mp hget
    simp only [update, updateChannel, Function.update_self, if_neg (not_lt.mpr hi), hj, hpfd, hfd,
      Option.isNone_some, true_or, not_true_eq_false, if_false, Bool.false_eq_true, ne_eq]
    split_ifs <;> exact ⟨_, rfl⟩

theorem update_cached (h : Exact p) (hI : Cached p) (hmask : IsMask mask)
    (hfirst : (p.chan i).index < 0 → mask ≠ 0) (hu : update p i mask = .ok p') : Cached p' := by
  obtain ⟨h', -⟩ := update_exact h hmask hfirst hu
  intro j hj
  by_cases hji : j = i
  · subst hji
    rcases update_cases hu with ⟨-, -, hchan, -, hpollfds⟩ |
      ⟨hi, hmap, hchan, pfd, hget, hfd, hcases⟩
    · refine ⟨p.pollfds.length, ?_, by rw [hchan, Function.update_self]⟩
      rw [fds, hpollfds, hchan, List.map_append, Function.update_self, List.getElem?_append_right]
      · simp
      · simp
    · have hown := h.own_entry (List.mem_of_getElem? hget) hfd
      rw [hchan, Function.update_self] at hj ⊢
      rcases hcases with ⟨-, -, hpollfds⟩ | ⟨rfl, hchannels', -⟩
      · refine ⟨(p.chan j).index.toNat, ?_, by simp [hi]⟩
        rw [fds, hpollfds, List.map_set, List.getElem?_set_self, hown]
        rw [List.length_map]
        exact (List.getElem?_eq_some_iff.mp hget).1
      · rw [hchannels', hown, Function.update_self] at hj
        cases hj
  · have hsame : p'.chan j = p.chan j := by
      rcases update_cases hu with ⟨-, -, hchan, -⟩ | ⟨-, -, hchan, -⟩
      · rw [hchan, Function.update_of_ne hji]
      · rw [hchan, Function.update_of_ne hji]
    have hl := (h'.live j).mp hj
    rw [hsame] at hl ⊢
    obtain ⟨k, hk, hle⟩ := hI j ((h.live j).mpr hl)
    obtain ⟨-, -, k', hget, hk'⟩ := update_position h hu hji ((h.live j).mpr hl) hk
    refine ⟨k', hget, ?_⟩
    split_ifs at hk' <;> omega

/-- A channel goes out of place when one in front of it is removed, and never comes back. -/
theorem update_inPlace (h : Exact p) (h' : Exact p') (hI : Cached p)
    (hu : update p i mask = .ok p') (hji : j ≠ i) (hj : p.channels (p.chan j).fd = some j) :
    InPlace p' j ↔ InPlace p j ∧
      ¬(mask = 0 ∧ 0 ≤ (p.chan i).index ∧ (p.chan i).index < (p.chan j).index) := by
  obtain ⟨k, hk, hle⟩ := hI j hj
  obtain ⟨hchan, -, k', hget, hk'⟩ := update_position h hu hji hj hk
  rw [inPlace_iff h.nodup hk, inPlace_iff h'.nodup (by rw [hchan]; exact hget), hchan]
  split_ifs at hk' with hfront
  · constructor
    · omega
    · rintro ⟨heq, hnot⟩
      exact absurd (heq ▸ hfront) hnot
  · subst hk'
    constructor
    · intro heq
      exact ⟨heq, heq ▸ hfront⟩
    · exact fun heq => heq.1

/-- A new channel passes them if its descriptor is free. -/
theorem update_new_ok (hi : (p.chan i).index < 0) (hfree : p.channels (p.chan i).fd = none) :
    ∃ p', update p i mask = .ok p' := by
  simp only [update, updateChannel, Function.update_self, if_pos hi, hfree, Option.isSome_none,
    Bool.false_eq_true, if_false]
  exact ⟨_, rfl⟩

/-- The calls of a registered channel add no entry and keep the order. -/
theorem update_sublist (hi : p.channels (p.chan i).fd = some i)
    (hu : update p i mask = .ok p') : p'.fds.Sublist p.fds := by
  rcases update_cases hu with ⟨-, hnone, -⟩ | ⟨-, -, -, pfd, hget, hfd, hcases⟩
  · rw [hi] at hnone
    cases hnone
  · rcases hcases with ⟨-, -, hpollfds⟩ | ⟨-, -, hpollfds⟩
    · have hsame : p'.fds = p.fds := by
        rw [fds, fds, hpollfds, List.map_set]
        obtain ⟨hlt, hpfd⟩ := List.getElem?_eq_some_iff.mp (getElem?_fds hget)
        rw [← hpfd, List.set_getElem_self]
      rw [hsame]
    · rw [fds, fds, hpollfds]
      exact (List.eraseIdx_sublist ..).map _

/-- The calls of a registered channel change its mask only. -/
theorem update_chan (hi : p.channels (p.chan i).fd = some i) (hu : update p i mask = .ok p') :
    p'.chan = Function.update p.chan i { p.chan i with events := mask } := by
  rcases update_cases hu with ⟨-, hnone, -⟩ | ⟨-, -, hchan, -⟩
  · rw [hi] at hnone
    cases hnone
  · exact hchan

/-- A channel that stays registered stays in place. -/
theorem update_inPlace_self (hi : p.channels (p.chan i).fd = some i)
    (hi' : p'.channels (p'.chan i).fd = some i) (h : Exact p) (hu : update p i mask = .ok p') :
    InPlace p' i := by
  have hin := (update_ok_iff h hi).mp ⟨p', hu⟩
  rcases update_cases hu with ⟨-, hnone, -⟩ | ⟨-, -, hchan, pfd, hget, hfd, hcases⟩
  · rw [hi] at hnone
    cases hnone
  · have hown := h.own_entry (List.mem_of_getElem? hget) hfd
    rw [hchan, Function.update_self] at hi'
    rw [InPlace, hchan, Function.update_self]
    refine ⟨hin.1, ?_⟩
    rcases hcases with ⟨-, -, hpollfds⟩ | ⟨-, hchannels, -⟩
    · rw [fds, hpollfds, List.map_set, List.getElem?_set_self, hown]
      exact (List.getElem?_eq_some_iff.mp hin.2).1
    · rw [hchannels, hown, Function.update_self] at hi'
      cases hi'

/-! ### Construction -/

/-- `Channel(loop, fd)`, for a channel object at address `i`. -/
def construct (p : Poller ι) (i : ι) (fd : ℤ) : Poller ι :=
  { p with chan := Function.update p.chan i (Channel.new fd) }

theorem construct_self {fd : ℤ} : (p.construct i fd).chan i = Channel.new fd :=
  Function.update_self ..

theorem construct_of_ne {fd : ℤ} (h : j ≠ i) : (p.construct i fd).chan j = p.chan j :=
  Function.update_of_ne h ..

theorem Exact.construct (h : Exact p) (hi : ∀ fd, p.channels fd ≠ some i) {fd : ℤ} (hfd : 0 ≤ fd) :
    Exact (p.construct i fd) := by
  refine ⟨fun j => ?_, fun j => ?_, h.nodup, h.keys, fun fd' j hj => ?_, fun j => ?_,
    fun e he j hj => ?_⟩
  · by_cases hji : j = i
    · rw [hji, construct_self]
      exact hfd
    · rw [construct_of_ne hji]
      exact h.nonneg j
  · by_cases hji : j = i
    · rw [hji, construct_self]
      exact Or.inl rfl
    · rw [construct_of_ne hji]
      exact h.masks j
  · have hji : j ≠ i := by
      rintro rfl
      exact hi fd' hj
    rw [construct_of_ne hji]
    exact h.mapped fd' j hj
  · by_cases hji : j = i
    · subst hji
      rw [construct_self]
      exact ⟨fun hj => absurd hj (hi fd), fun hlive => absurd hlive.1 (by simp [Channel.new])⟩
    · rw [construct_of_ne hji]
      exact h.live j
  · have hji : j ≠ i := by
      rintro rfl
      exact hi _ hj
    rw [construct_of_ne hji]
    exact h.entries e he j hj

theorem Cached.construct (h : Cached p) (hi : ∀ fd, p.channels fd ≠ some i) {fd : ℤ} :
    Cached (p.construct i fd) := by
  intro j hj
  have hji : j ≠ i := by
    rintro rfl
    exact hi _ hj
  rw [construct_of_ne hji] at hj ⊢
  exact h j hj

/-! ### Runs that shift -/

/-- A poll moves no entry and writes no cached position. -/
theorem act_poll_frame {numEvents : ℤ} {revents : List (BitVec 16)}
    (hp : act p (.poll numEvents revents) = some p') (j : ι) :
    p'.fds = p.fds ∧ p'.channels = p.channels ∧ (p'.chan j).fd = (p.chan j).fd ∧
      (p'.chan j).index = (p.chan j).index := by
  obtain ⟨hlen, active, hpoll⟩ := act_poll hp
  obtain ⟨hfds, hchannels, hchan, -⟩ := poll_frame hlen hpoll
  obtain ⟨r, hr⟩ := hchan j
  rw [hr]
  exact ⟨hfds, hchannels, rfl, rfl⟩

theorem act_cached {a : Act ι} (h : Exact p) (hI : Cached p) (ha : Enables p a)
    (hp : act p a = some p') : Cached p' := by
  cases a with
  | call c =>
    obtain ⟨i, op⟩ := c
    have hcall := step_some.mp hp
    rw [call_eq_update] at hcall
    exact update_cached h hI (op.apply_isMask (h.masks i)) ha hcall
  | poll numEvents revents =>
    intro j hj
    obtain ⟨hfds, hchannels, hfd, hindex⟩ := act_poll_frame hp j
    rw [hfds, hfd, hindex]
    exact hI j (by rw [← hchannels, ← hfd]; exact hj)

/-- What is out of place stays registered and out of place. -/
theorem act_outOfPlace {a : Act ι} (h : Exact p) (hI : Cached p) (ha : Enables p a)
    (hp : act p a = some p') (hj : p.channels (p.chan j).fd = some j) (hout : ¬InPlace p j) :
    p'.channels (p'.chan j).fd = some j ∧ ¬InPlace p' j := by
  have h' := act_exact h ha hp
  cases a with
  | call c =>
    obtain ⟨i, op⟩ := c
    have hcall := step_some.mp hp
    rw [call_eq_update] at hcall
    have hji : j ≠ i := by
      rintro rfl
      exact hout ((update_ok_iff h hj).mp ⟨p', hcall⟩)
    obtain ⟨k, hk, -⟩ := hI j hj
    obtain ⟨hchan, hmap, -⟩ := update_position h hcall hji hj hk
    refine ⟨by rw [hchan]; exact hmap, fun hin => hout ?_⟩
    exact ((update_inPlace h h' hI hcall hji hj).mp hin).1
  | poll numEvents revents =>
    obtain ⟨hfds, hchannels, hfd, hindex⟩ := act_poll_frame hp j
    refine ⟨by rw [hchannels, hfd]; exact hj, fun hin => hout ?_⟩
    rw [InPlace, hfds, hfd, hindex] at hin
    exact hin

theorem run_cached {as : List (Act ι)} (h : Unused p) (has : Along act Enables p as)
    (hrun : run act p as = some p') : Exact p' ∧ Cached p' := by
  refine run_inv_along (I := fun p => Exact p ∧ Cached p) (fun _ _ _ hI ha hp => ?_) hrun has
    ⟨h.exact, fun j hj => ?_⟩
  · exact ⟨act_exact hI.1 ha hp, act_cached hI.1 hI.2 ha hp⟩
  · rw [h.channels] at hj
    cases hj

/-- **A shifted channel is lost.**  When a channel leaves the table, every channel registered behind
it stays in the map for good: whatever calls and polls follow, each further interest call on it ends
in a failed assertion. -/
theorem shifted_forever {as bs : List (Act ι)} {p₁ p₂ : Poller ι} (h : Unused p)
    (has : Along act Enables p as) (hrun : run act p as = some p₁)
    (hi : 0 ≤ (p₁.chan i).index) (hop : (op.apply (p₁.chan i)).events = 0)
    (hj : p₁.channels (p₁.chan j).fd = some j) (hlt : (p₁.chan i).index < (p₁.chan j).index)
    (hcall : call p₁ (i, op) = .ok p₂) (hbs : Along act Enables p₂ bs)
    (hrun' : run act p₂ bs = some p') :
    p'.channels (p'.chan j).fd = some j ∧ ∀ op, ∃ e, call p' (j, op) = .error e := by
  obtain ⟨hexact, hcached⟩ := run_cached h has hrun
  have hji : j ≠ i := by
    rintro rfl
    exact lt_irrefl _ hlt
  have henables : Enables p₁ (.call (i, op)) := fun hneg => absurd hi (not_le.mpr hneg)
  have hexact₂ := act_exact hexact henables (step_some.mpr hcall)
  have hcached₂ := act_cached hexact hcached henables (step_some.mpr hcall)
  rw [call_eq_update, hop] at hcall
  have hout : p₂.channels (p₂.chan j).fd = some j ∧ ¬InPlace p₂ j := by
    obtain ⟨k, hk, -⟩ := hcached j hj
    obtain ⟨hchan, hmap, -⟩ := update_position hexact hcall hji hj hk
    refine ⟨by rw [hchan]; exact hmap, fun hin => ?_⟩
    exact ((update_inPlace hexact hexact₂ hcached hcall hji hj).mp hin).2 ⟨rfl, hi, hlt⟩
  obtain ⟨hexact', -, hmap', hout'⟩ : Exact p' ∧ Cached p' ∧
      p'.channels (p'.chan j).fd = some j ∧ ¬InPlace p' j := by
    refine run_inv_along (I := fun p => Exact p ∧ Cached p ∧
      p.channels (p.chan j).fd = some j ∧ ¬InPlace p j) ?_ hrun' hbs ⟨hexact₂, hcached₂, hout⟩
    rintro p a p' ⟨he, hI, hmap, hout⟩ ha hp
    exact ⟨act_exact he ha hp, act_cached he hI ha hp, act_outOfPlace he hI ha hp hmap hout⟩
  refine ⟨hmap', fun op => ?_⟩
  rw [call_eq_update]
  cases hu : update p' j (op.apply (p'.chan j)).events with
  | error e => exact ⟨e, rfl⟩
  | ok p'' => exact absurd ((update_ok_iff hexact' hmap').mp ⟨p'', hu⟩) hout'

/-- The second channel of `pair` is lost when the first one leaves, also after another poll. -/
theorem shifted_forever_pair : ∃ p₂ p' : Poller (Fin 2),
    call pairReading (0, .disbaleAll) = .ok p₂ ∧ run act p₂ [.poll 1 [1]] = some p' ∧
      p'.channels (p'.chan 1).fd = some 1 ∧ ∀ op, ∃ e, call p' (1, op) = .error e := by
  have hrun : run act pair [.call (0, .enableReading), .call (1, .enableReading)] =
      some pairReading :=
    run_cons_some.mpr ⟨_, step_some.mpr pair_call_first,
      run_cons_some.mpr ⟨_, step_some.mpr pair_call_second, rfl⟩⟩
  have hcall : call pairReading (0, .disbaleAll) = .ok (removed pairReading 0 .disbaleAll) :=
    call_remove (pairReading_inv.seated (by decide) (by decide)) (by decide)
  have hsome : (run act (removed pairReading 0 .disbaleAll) [.poll 1 [1]]).isSome = true := by
    decide
  obtain ⟨p', hp'⟩ := Option.isSome_iff_exists.mp hsome
  refine ⟨_, p', hcall, hp', ?_⟩
  exact shifted_forever (i := 0) pair_unused (by decide) hrun (by decide) (by decide) (by decide)
    (by decide) hcall (by decide) hp'

end Polly.Poller
