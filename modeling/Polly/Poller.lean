import Polly.Runs
import Polly.Channel

/-!
# Poller — registration of channels (`net/poller.h`, `net/poller.cc`)

`Poller::UpdateChannel` keeps three things in step: the vector `pollfds_` handed to poll(2), the
map `channels_` from descriptors to channels, and the position `index_` cached in every channel.
Channels are objects of an arbitrary type `ι` of addresses; `chan` is the heap of those objects.
A failed assertion is the error of `updateChannel`, named after what it asserts.

* `Rep`: the representation invariant: cached positions, table and map agree.
* `call_new`, `call_update`, `call_remove`: what a call does in each of its three branches.
* `step_rep_iff`: from a good state a call re-establishes `Rep` unless it `Shifts` a live channel:
  erasing an entry moves all later ones, and only the erased channel's position is let go.
* `rep_along_iff`: over whole runs, `Rep` and the assertions hold exactly while no call shifts.
-/

namespace Polly

open Runs

/-- `struct pollfd`. -/
structure PollFd where
  fd : ℤ
  events : BitVec 16
  revents : BitVec 16
  deriving DecidableEq, Repr

/-- The assertions of `UpdateChannel`, in source order. -/
inductive UpdateAssert where
  | notPresent | present | sameChannel | indexInRange | entryOfChannel
  deriving DecidableEq, Repr

/-- The poller's two containers and the channel objects they point to. -/
structure Poller (ι : Type*) where
  chan : ι → Channel
  pollfds : List PollFd
  channels : ℤ → Option ι

namespace Poller

variable {ι : Type*}

section Defs

variable [DecidableEq ι]

/-- `Poller::UpdateChannel`. -/
def updateChannel (p : Poller ι) (i : ι) : Except UpdateAssert (Poller ι) :=
  let ch := p.chan i
  if ch.index < 0 then
    -- a new one, add to `pollfds_`
    if (p.channels ch.fd).isSome then .error .notPresent
    else
      let pollfds := p.pollfds ++ [⟨ch.fd, ch.events.setWidth 16, 0⟩]
      .ok { chan := Function.update p.chan i { ch with index := (pollfds.length : ℤ) - 1 }
            pollfds := pollfds
            channels := Function.update p.channels ch.fd (some i) }
  else
    -- update existing one
    if (p.channels ch.fd).isNone then .error .present
    else if p.channels ch.fd ≠ some i then .error .sameChannel
    else
      match p.pollfds[ch.index.toNat]? with
      | none => .error .indexInRange
      | some pfd =>
        if ¬ (pfd.fd = ch.fd ∨ pfd.fd = -1) then .error .entryOfChannel
        else
          let pollfds := p.pollfds.set ch.index.toNat
            { pfd with events := ch.events.setWidth 16, revents := 0 }
          if ch.isNoneEvent then
            .ok { p with
              channels := Function.update p.channels pfd.fd none
              pollfds := pollfds.eraseIdx ch.index.toNat }
          else .ok { p with pollfds := pollfds }

/-- One of the four interest calls on channel `i`: the mask changes, then `update()` brings the
channel to `UpdateChannel`. -/
def call (p : Poller ι) (c : ι × Interest) : Except UpdateAssert (Poller ι) :=
  updateChannel { p with chan := Function.update p.chan c.1 (c.2.apply (p.chan c.1)) } c.1

/-- The call as a step; an assertion that fails ends the run. -/
def step (p : Poller ι) (c : ι × Interest) : Option (Poller ι) := (call p c).toOption

end Defs

/-! ### The representation invariant -/

/-- Cached positions, table and map agree: (a) a registered channel (`index_` is no longer `-1`)
with a non-zero mask finds its own entry at its position, with its mask; (b) descriptors are
distinct in the table and are the keys of the map, each mapped to the channel that has it. -/
structure Rep (p : Poller ι) : Prop where
  live : ∀ i, 0 ≤ (p.chan i).index → (p.chan i).events ≠ 0#32 →
    ∃ pfd, p.pollfds[(p.chan i).index.toNat]? = some pfd ∧ pfd.fd = (p.chan i).fd ∧
      pfd.events.signExtend 32 = (p.chan i).events
  nodup : (p.pollfds.map PollFd.fd).Nodup
  keys : ∀ fd, fd ∈ p.pollfds.map PollFd.fd ↔ (p.channels fd).isSome
  mapped : ∀ fd i, p.channels fd = some i → (p.chan i).fd = fd

/-- `Rep` with what makes it inductive: the channels' descriptors differ, masks are masks, and a
channel without a position has no entry. -/
structure Inv (p : Poller ι) : Prop extends Rep p where
  inj : ∀ i j, (p.chan i).fd = (p.chan j).fd → i = j
  mask : ∀ i, IsMask (p.chan i).events
  fresh : ∀ i, (p.chan i).index < 0 → p.channels (p.chan i).fd = none

/-- An empty poller and channels just constructed, with pairwise distinct descriptors. -/
structure Fresh (p : Poller ι) : Prop where
  chan : ∀ i, p.chan i = Channel.new (p.chan i).fd
  inj : ∀ i j, (p.chan i).fd = (p.chan j).fd → i = j
  pollfds : p.pollfds = []
  channels : ∀ fd, p.channels fd = none

/-- The calls considered: a channel that has made no call yet, or whose mask is not zero. -/
def Legal (p : Poller ι) (c : ι × Interest) : Prop :=
  (p.chan c.1).index < 0 ∨ (p.chan c.1).events ≠ 0#32

/-- The call takes a registered channel's mask to zero, so its entry is erased, while the entry of
a channel with a non-zero mask stands behind it in the table. -/
def Shifts (p : Poller ι) (c : ι × Interest) : Prop :=
  0 ≤ (p.chan c.1).index ∧ (c.2.apply (p.chan c.1)).events = 0#32 ∧
    ∃ j, (p.chan j).events ≠ 0#32 ∧ (p.chan c.1).index < (p.chan j).index

instance (p : Poller ι) (c : ι × Interest) : Decidable (Legal p c) :=
  inferInstanceAs (Decidable ((p.chan c.1).index < 0 ∨ (p.chan c.1).events ≠ 0#32))

instance [Fintype ι] (p : Poller ι) (c : ι × Interest) : Decidable (Shifts p c) :=
  inferInstanceAs (Decidable (0 ≤ (p.chan c.1).index ∧ (c.2.apply (p.chan c.1)).events = 0#32 ∧
    ∃ j, (p.chan j).events ≠ 0#32 ∧ (p.chan c.1).index < (p.chan j).index))

theorem Fresh.inv {p : Poller ι} (h : Fresh p) : Inv p where
  live i hi := by rw [h.chan i] at hi; simp [Channel.new] at hi
  nodup := by rw [h.pollfds]; exact List.nodup_nil
  keys fd := by simp [h.pollfds, h.channels]
  mapped fd i hi := by rw [h.channels] at hi; cases hi
  inj := h.inj
  mask i := by rw [h.chan i]; exact Or.inl rfl
  fresh i _ := h.channels _

/-- A live channel is the one its descriptor is mapped to. -/
theorem Inv.liveMapped {p : Poller ι} (h : Inv p) {i : ι} (hi : 0 ≤ (p.chan i).index)
    (he : (p.chan i).events ≠ 0#32) : p.channels (p.chan i).fd = some i := by
  obtain ⟨pfd, h₁, h₂, -⟩ := h.live i hi he
  have hmem : (p.chan i).fd ∈ p.pollfds.map PollFd.fd := by
    rw [← h₂]; exact List.mem_map_of_mem (List.mem_of_getElem? h₁)
  obtain ⟨j, hj⟩ := Option.isSome_iff_exists.mp ((h.keys _).mp hmem)
  rw [hj, h.inj j i (h.mapped _ j hj)]

/-- Channel `i` is registered: the map has it, and its entry, the only one with its descriptor,
stands at its position with its mask. -/
structure Seated (p : Poller ι) (i : ι) : Prop where
  index : 0 ≤ (p.chan i).index
  mask : IsMask (p.chan i).events
  mapped : p.channels (p.chan i).fd = some i
  entry : ∃ pfd, p.pollfds[(p.chan i).index.toNat]? = some pfd ∧ pfd.fd = (p.chan i).fd ∧
    pfd.events.signExtend 32 = (p.chan i).events
  nodup : (p.pollfds.map PollFd.fd).Nodup

theorem Inv.seated {p : Poller ι} (h : Inv p) {i : ι} (hi : 0 ≤ (p.chan i).index)
    (he : (p.chan i).events ≠ 0#32) : Seated p i :=
  ⟨hi, h.mask i, h.liveMapped hi he, h.live i hi he, h.nodup⟩

/-! ### The three branches -/

section Calls

variable [DecidableEq ι]

/-- The state after a first call of channel `i`. -/
def added (p : Poller ι) (i : ι) (op : Interest) : Poller ι where
  chan := Function.update p.chan i { op.apply (p.chan i) with index := p.pollfds.length }
  pollfds := p.pollfds ++ [⟨(p.chan i).fd, (op.apply (p.chan i)).events.setWidth 16, 0⟩]
  channels := Function.update p.channels (p.chan i).fd (some i)

/-- The state after a call that leaves channel `i` registered. -/
def changed (p : Poller ι) (i : ι) (op : Interest) : Poller ι where
  chan := Function.update p.chan i (op.apply (p.chan i))
  pollfds := p.pollfds.set (p.chan i).index.toNat
    ⟨(p.chan i).fd, (op.apply (p.chan i)).events.setWidth 16, 0⟩
  channels := p.channels

/-- The state after a call that takes the mask of channel `i` to zero. -/
def removed (p : Poller ι) (i : ι) (op : Interest) : Poller ι where
  chan := Function.update p.chan i (op.apply (p.chan i))
  pollfds := p.pollfds.eraseIdx (p.chan i).index.toNat
  channels := Function.update p.channels (p.chan i).fd none

variable {p : Poller ι} {i : ι} {op : Interest}

theorem call_new (h : Inv p) (hi : (p.chan i).index < 0) :
    call p (i, op) = .ok (added p i op) := by
  simp [call, updateChannel, added, hi, h.fresh i hi]

theorem call_update (h : Seated p i) (hop : (op.apply (p.chan i)).events ≠ 0#32) :
    call p (i, op) = .ok (changed p i op) := by
  obtain ⟨pfd, h₁, h₂, -⟩ := h.entry
  simp [call, updateChannel, changed, not_lt.mpr h.index, h.mapped, h₁, h₂,
    Channel.isNoneEvent, kNoneEvent, hop]

theorem call_remove (h : Seated p i) (hop : (op.apply (p.chan i)).events = 0#32) :
    call p (i, op) = .ok (removed p i op) := by
  obtain ⟨pfd, h₁, h₂, -⟩ := h.entry
  simp [call, updateChannel, removed, not_lt.mpr h.index, h.mapped, h₁, h₂,
    Channel.isNoneEvent, kNoneEvent, hop, List.eraseIdx_set_eq]

/-- The descriptors of the table after an update: the entry is replaced by one with the same
descriptor. -/
theorem changed_fds (h : Seated p i) :
    (changed p i op).pollfds.map PollFd.fd = p.pollfds.map PollFd.fd := by
  obtain ⟨pfd, hpfd, hfd, -⟩ := h.entry
  obtain ⟨hlt, hget⟩ := List.getElem?_eq_some_iff.mp hpfd
  simp only [changed, List.map_set]
  rw [← hfd, ← hget, ← List.getElem_map PollFd.fd (h := by simpa using hlt),
    List.set_getElem_self]

/-- The descriptors of the table after an erase: all but the erased channel's. -/
theorem removed_fds (h : Seated p i) :
    (removed p i op).pollfds.map PollFd.fd = (p.pollfds.map PollFd.fd).erase (p.chan i).fd := by
  obtain ⟨pfd, hpfd, hfd, -⟩ := h.entry
  obtain ⟨hlt, hget⟩ := List.getElem?_eq_some_iff.mp hpfd
  have hlt' : (p.chan i).index.toNat < (p.pollfds.map PollFd.fd).length := by simpa using hlt
  rw [removed, ← List.eraseIdx_map, ← h.nodup.erase_getElem _ hlt', List.getElem_map, hget, hfd]

/-! ### Each branch against the invariant -/

/-- Replacing a channel object by one with the same descriptor changes no descriptor. -/
theorem update_fd {ch : Channel} (h : ch.fd = (p.chan i).fd) (j : ι) :
    (Function.update p.chan i ch j).fd = (p.chan j).fd := by
  by_cases hj : j = i
  · subst hj; rw [Function.update_self, h]
  · rw [Function.update_of_ne hj]

theorem update_inj {ch : Channel} (h : Inv p) (hfd : ch.fd = (p.chan i).fd) (j k : ι)
    (hjk : (Function.update p.chan i ch j).fd = (Function.update p.chan i ch k).fd) : j = k := by
  rw [update_fd hfd, update_fd hfd] at hjk
  exact h.inj j k hjk

theorem update_mask {ch : Channel} (h : Inv p) (hch : IsMask ch.events) :
    ∀ j, IsMask (Function.update p.chan i ch j).events :=
  (Function.forall_update_iff p.chan fun _ ch => IsMask ch.events).mpr ⟨hch, fun j _ => h.mask j⟩

/-- After a call of a registered channel, a channel without a position is another one. -/
theorem ne_of_fresh {j : ι} (hi : 0 ≤ (p.chan i).index)
    (hj : (Function.update p.chan i (op.apply (p.chan i)) j).index < 0) : j ≠ i := by
  rintro rfl
  rw [Function.update_self, Interest.apply_index] at hj
  omega

omit [DecidableEq ι] in
/-- Two live channels do not share a position. -/
theorem Inv.index_ne {j : ι} (h : Inv p) (hi : 0 ≤ (p.chan i).index)
    (he : (p.chan i).events ≠ 0#32) (hj : 0 ≤ (p.chan j).index) (hje : (p.chan j).events ≠ 0#32)
    (hji : j ≠ i) : (p.chan j).index.toNat ≠ (p.chan i).index.toNat := by
  intro heq
  obtain ⟨pfd, h₁, h₂, -⟩ := h.live i hi he
  obtain ⟨pfd', h₃, h₄, -⟩ := h.live j hj hje
  rw [heq, h₁] at h₃
  cases h₃
  exact hji (h.inj j i (h₄.symm.trans h₂))

theorem inv_added (h : Inv p) (hi : (p.chan i).index < 0) : Inv (added p i op) where
  live j hj he := by
    simp only [added] at hj he ⊢
    by_cases hji : j = i
    · subst hji
      rw [Function.update_self] at he ⊢
      have hm := (op.apply_isMask (h.mask j)).cast_short
      exact ⟨⟨(p.chan j).fd, (op.apply (p.chan j)).events.setWidth 16, 0⟩, by simp, by simp, hm⟩
    · rw [Function.update_of_ne hji] at hj he ⊢
      obtain ⟨pfd, h₁, h₂⟩ := h.live j hj he
      obtain ⟨hlt, -⟩ := List.getElem?_eq_some_iff.mp h₁
      exact ⟨pfd, by rw [List.getElem?_append_left hlt, h₁], h₂⟩
  nodup := by
    simp only [added, List.map_append, List.map_cons, List.map_nil]
    refine List.Nodup.append h.nodup (List.nodup_singleton _) ?_
    rw [List.disjoint_singleton]
    intro hmem
    have := (h.keys _).mp hmem
    rw [h.fresh i hi] at this
    cases this
  keys fd := by
    simp only [added, List.map_append, List.mem_append, h.keys]
    by_cases hfd : fd = (p.chan i).fd
    · subst hfd; simp
    · rw [Function.update_of_ne hfd]; simp [hfd]
  mapped fd j hj := by
    simp only [added] at hj ⊢
    rw [update_fd (by simp)]
    by_cases hfd : fd = (p.chan i).fd
    · subst hfd
      rw [Function.update_self] at hj
      cases hj
      rfl
    · rw [Function.update_of_ne hfd] at hj
      exact h.mapped fd j hj
  inj := update_inj h (op.apply_fd _)
  mask := by
    have hm : IsMask ({ op.apply (p.chan i) with index := p.pollfds.length } : Channel).events :=
      op.apply_isMask (h.mask i)
    exact update_mask h hm
  fresh j hj := by
    simp only [added] at hj ⊢
    rw [update_fd (by simp)]
    have hji : j ≠ i := by
      rintro rfl
      rw [Function.update_self] at hj
      have hlen : (p.pollfds.length : ℤ) < 0 := hj
      omega
    rw [Function.update_of_ne hji] at hj
    rw [Function.update_of_ne fun hfd => hji (h.inj j i hfd)]
    exact h.fresh j hj

theorem inv_changed (h : Inv p) (hi : 0 ≤ (p.chan i).index) (he : (p.chan i).events ≠ 0#32) :
    Inv (changed p i op) := by
  obtain ⟨pfd, hpfd, -⟩ := h.live i hi he
  obtain ⟨hlt, -⟩ := List.getElem?_eq_some_iff.mp hpfd
  have hmap : (changed p i op).pollfds.map PollFd.fd = p.pollfds.map PollFd.fd :=
    changed_fds (h.seated hi he)
  refine ⟨⟨?_, ?_, ?_, ?_⟩, ?_, ?_, ?_⟩
  · intro j hj hje
    simp only [changed] at hj hje ⊢
    by_cases hji : j = i
    · subst hji
      rw [Function.update_self] at hje ⊢
      rw [Interest.apply_index, List.getElem?_set_self hlt]
      exact ⟨_, rfl, (op.apply_fd _).symm, (op.apply_isMask (h.mask j)).cast_short⟩
    · rw [Function.update_of_ne hji] at hj hje ⊢
      obtain ⟨pfd', h₁, h₂, h₃⟩ := h.live j hj hje
      have hne := h.index_ne hi he hj hje hji
      exact ⟨pfd', by rw [List.getElem?_set_ne hne.symm, h₁], h₂, h₃⟩
  · rw [hmap]; exact h.nodup
  · intro fd; rw [hmap]; exact h.keys fd
  · intro fd j hj
    exact (update_fd (op.apply_fd _) j).trans (h.mapped fd j hj)
  · exact update_inj h (op.apply_fd _)
  · exact update_mask h (op.apply_isMask (h.mask i))
  · intro j hj
    simp only [changed] at hj ⊢
    rw [update_fd (op.apply_fd _)]
    have hji := ne_of_fresh hi hj
    rw [Function.update_of_ne hji] at hj
    exact h.fresh j hj

theorem inv_removed (h : Inv p) (hi : 0 ≤ (p.chan i).index) (he : (p.chan i).events ≠ 0#32)
    (hop : (op.apply (p.chan i)).events = 0#32)
    (hlast : ∀ j, (p.chan j).events ≠ 0#32 → (p.chan j).index ≤ (p.chan i).index) :
    Inv (removed p i op) := by
  refine ⟨⟨?_, ?_, ?_, ?_⟩, ?_, ?_, ?_⟩
  · intro j hj hje
    simp only [removed] at hj hje ⊢
    have hji : j ≠ i := by
      rintro rfl
      rw [Function.update_self] at hje
      exact hje hop
    rw [Function.update_of_ne hji] at hj hje ⊢
    obtain ⟨pfd', h₁, h₂, h₃⟩ := h.live j hj hje
    -- `j` stands before the erased entry, so its own entry does not move
    have hlt : (p.chan j).index.toNat < (p.chan i).index.toNat := by
      have hle := hlast j hje
      have hne := h.index_ne hi he hj hje hji
      omega
    exact ⟨pfd', by rw [List.getElem?_eraseIdx_of_lt hlt, h₁], h₂, h₃⟩
  · rw [removed_fds (h.seated hi he)]; exact h.nodup.erase _
  · intro fd
    rw [removed_fds (h.seated hi he), h.nodup.mem_erase_iff, h.keys]
    by_cases hfd' : fd = (p.chan i).fd
    · subst hfd'; simp [removed]
    · simp [removed, hfd']
  · intro fd j hj
    simp only [removed] at hj ⊢
    rw [update_fd (op.apply_fd _)]
    by_cases hfd' : fd = (p.chan i).fd
    · subst hfd'
      rw [Function.update_self] at hj
      cases hj
    · rw [Function.update_of_ne hfd'] at hj
      exact h.mapped fd j hj
  · exact update_inj h (op.apply_fd _)
  · exact update_mask h (op.apply_isMask (h.mask i))
  · intro j hj
    simp only [removed] at hj ⊢
    rw [update_fd (op.apply_fd _)]
    have hji := ne_of_fresh hi hj
    rw [Function.update_of_ne hji] at hj
    rw [Function.update_of_ne fun hfd' => hji (h.inj j i hfd')]
    exact h.fresh j hj

/-- Erasing an entry in front of a live channel's moves that entry away from its position. -/
theorem not_rep_removed (h : Inv p) (hi : 0 ≤ (p.chan i).index) (he : (p.chan i).events ≠ 0#32)
    {j : ι} (hj : (p.chan j).events ≠ 0#32) (hlt : (p.chan i).index < (p.chan j).index) :
    ¬ Rep (removed p i op) := by
  intro hr
  have hji : j ≠ i := by rintro rfl; exact lt_irrefl _ hlt
  have hj0 : 0 ≤ (p.chan j).index := hi.trans hlt.le
  obtain ⟨pfd, h₁, h₂, -⟩ := h.live j hj0 hj
  have hr' := hr.live j
  simp only [removed, Function.update_of_ne hji] at hr'
  obtain ⟨pfd', h₃, h₄, -⟩ := hr' hj0 hj
  rw [List.getElem?_eraseIdx_of_ge (by omega)] at h₃
  -- the same descriptor would stand at two places of the table
  have h₅ : (p.pollfds.map PollFd.fd)[(p.chan j).index.toNat]? = some (p.chan j).fd := by
    rw [List.getElem?_map, h₁, Option.map_some, h₂]
  have h₆ : (p.pollfds.map PollFd.fd)[(p.chan j).index.toNat + 1]? = some (p.chan j).fd := by
    rw [List.getElem?_map, h₃, Option.map_some, h₄]
  have hlen := (List.getElem?_eq_some_iff.mp h₅).1
  have := (List.getElem?_inj hlen h.nodup).mp (h₅.trans h₆.symm)
  omega

/-! ### Runs -/

/-- **One call.**  From a good state a legal call trips no assertion, and it leaves the three
structures in agreement unless it shifts a live channel; then the next state is good again. -/
theorem step_rep_iff {c : ι × Interest} (h : Inv p) (hl : Legal p c) :
    (∃ p', call p c = .ok p' ∧ Rep p') ↔ ¬ Shifts p c := by
  obtain ⟨i, op⟩ := c
  by_cases hi : (p.chan i).index < 0
  · refine iff_of_true ⟨_, call_new h hi, (inv_added h hi).toRep⟩ ?_
    intro hs
    exact absurd hs.1 (not_le.mpr hi)
  rw [not_lt] at hi
  have he : (p.chan i).events ≠ 0#32 := hl.resolve_left (not_lt.mpr hi)
  by_cases hop : (op.apply (p.chan i)).events = 0#32
  · rw [call_remove (h.seated hi he) hop]
    constructor
    · rintro ⟨p', hp', hr⟩ ⟨-, -, j, hj, hlt⟩
      cases hp'
      exact not_rep_removed h hi he hj hlt hr
    · intro hs
      refine ⟨_, rfl, (inv_removed h hi he hop fun j hj => ?_).toRep⟩
      by_contra hlt
      exact hs ⟨hi, hop, j, hj, not_le.mp hlt⟩
  · refine iff_of_true ⟨_, call_update (h.seated hi he) hop, (inv_changed h hi he).toRep⟩ ?_
    intro hs
    exact hop hs.2.1

theorem step_inv {p' : Poller ι} {c : ι × Interest} (h : Inv p) (hl : Legal p c)
    (hs : ¬ Shifts p c) (hp' : step p c = some p') : Inv p' := by
  obtain ⟨i, op⟩ := c
  rw [step] at hp'
  by_cases hi : (p.chan i).index < 0
  · rw [call_new h hi] at hp'
    cases hp'
    exact inv_added h hi
  rw [not_lt] at hi
  have he : (p.chan i).events ≠ 0#32 := hl.resolve_left (not_lt.mpr hi)
  by_cases hop : (op.apply (p.chan i)).events = 0#32
  · rw [call_remove (h.seated hi he) hop] at hp'
    cases hp'
    refine inv_removed h hi he hop fun j hj => ?_
    by_contra hlt
    exact hs ⟨hi, hop, j, hj, not_le.mp hlt⟩
  · rw [call_update (h.seated hi he) hop] at hp'
    cases hp'
    exact inv_changed h hi he

theorem step_some {p' : Poller ι} {c : ι × Interest} : step p c = some p' ↔ call p c = .ok p' := by
  unfold step
  cases call p c <;> simp [Except.toOption]

/-- What a call does when no assertion fails, from any state. -/
theorem call_cases {p' : Poller ι} (h : call p (i, op) = .ok p') :
    ((p.chan i).index < 0 ∧ p.channels (p.chan i).fd = none ∧ p' = added p i op) ∨
    (0 ≤ (p.chan i).index ∧ p.channels (p.chan i).fd = some i ∧
      ∃ pfd ∈ p.pollfds, (pfd.fd = (p.chan i).fd ∨ pfd.fd = -1) ∧
        p'.chan = Function.update p.chan i (op.apply (p.chan i)) ∧
        (((op.apply (p.chan i)).events ≠ 0#32 ∧ p'.channels = p.channels ∧
            p'.pollfds = p.pollfds.set (p.chan i).index.toNat
              ⟨pfd.fd, (op.apply (p.chan i)).events.setWidth 16, 0⟩) ∨
          ((op.apply (p.chan i)).events = 0#32 ∧
            p'.channels = Function.update p.channels pfd.fd none ∧
            p'.pollfds = p.pollfds.eraseIdx (p.chan i).index.toNat))) := by
  by_cases hi : (p.chan i).index < 0
  · left
    simp only [call, updateChannel, Function.update_self, Interest.apply_index, Interest.apply_fd,
      if_pos hi] at h
    split_ifs at h with hnone
    cases h
    exact ⟨hi, by simpa using hnone, by simp [added]⟩
  · right
    simp only [call, updateChannel, Function.update_self, Interest.apply_index, Interest.apply_fd,
      if_neg hi] at h
    refine ⟨not_lt.mp hi, ?_⟩
    cases hget : p.pollfds[(p.chan i).index.toNat]? with
    | none =>
      simp only [hget] at h
      split_ifs at h
    | some pfd =>
      simp only [hget] at h
      split_ifs at h with hnone hsame hfd hev
      all_goals
        cases h
        refine ⟨not_ne_iff.mp hsame, pfd, List.mem_of_getElem? hget, hfd, rfl, ?_⟩
      · exact Or.inr ⟨by simpa [Channel.isNoneEvent, kNoneEvent] using hev, rfl,
          List.eraseIdx_set_eq ..⟩
      · exact Or.inl ⟨by simpa [Channel.isNoneEvent, kNoneEvent] using hev, rfl, rfl⟩

/-- A call gives its own channel a position and leaves the other channel objects alone. -/
theorem call_chan {p' : Poller ι} (h : call p (i, op) = .ok p') :
    0 ≤ (p'.chan i).index ∧ ∀ j, j ≠ i → p'.chan j = p.chan j := by
  rcases call_cases h with ⟨-, -, rfl⟩ | ⟨hi, -, pfd, -, -, hchan, -⟩
  · exact ⟨by simp [added], fun j hj => Function.update_of_ne hj _ _⟩
  · rw [hchan]
    exact ⟨by simpa using hi, fun j hj => Function.update_of_ne hj _ _⟩

theorem step_index {p' : Poller ι} {c : ι × Interest} (hp' : step p c = some p') (j : ι) :
    0 ≤ (p'.chan j).index ↔ 0 ≤ (p.chan j).index ∨ j = c.1 := by
  obtain ⟨h₁, h₂⟩ := call_chan (step_some.mp hp')
  by_cases hj : j = c.1
  · subst hj; simp [h₁]
  · rw [h₂ j hj]; simp [hj]

/-- Having a position is having been registered: some earlier call of the run was the channel's. -/
theorem registered_iff_called {p' : Poller ι} {cs : List (ι × Interest)} (h : Fresh p)
    (hr : run step p cs = some p') (j : ι) : 0 ≤ (p'.chan j).index ↔ ∃ op, (j, op) ∈ cs := by
  have key : ∀ (cs : List (ι × Interest)) (p : Poller ι), run step p cs = some p' →
      (0 ≤ (p'.chan j).index ↔ 0 ≤ (p.chan j).index ∨ ∃ op, (j, op) ∈ cs) := by
    intro cs
    induction cs with
    | nil => intro p hp; cases hp; simp
    | cons c cs ih =>
      intro p hp
      obtain ⟨p₁, h₁, h₂⟩ := run_cons_some.mp hp
      rw [ih p₁ h₂, step_index h₁ j, or_assoc]
      refine or_congr_right ?_
      constructor
      · rintro (rfl | ⟨op, hop⟩)
        · exact ⟨c.2, by simp⟩
        · exact ⟨op, by simp [hop]⟩
      · rintro ⟨op, hop⟩
        rcases List.mem_cons.mp hop with heq | hop
        · exact Or.inl (congrArg Prod.fst heq)
        · exact Or.inr ⟨op, hop⟩
  rw [key cs p hr, h.chan j]
  simp [Channel.new]

/-- **Whole runs.**  For any number of channels and any run of legal calls on a fresh poller, every
call passes the assertions and ends in agreement exactly if no call of the run shifts. -/
theorem rep_along_iff {cs : List (ι × Interest)} (h : Fresh p) (hl : Along step Legal p cs) :
    Along step (fun p c => ∃ p', call p c = .ok p' ∧ Rep p') p cs ↔
      Along step (fun p c => ¬ Shifts p c) p cs := by
  refine along_iff (I := Inv) (L := Legal) ?_ ?_ hl h.inv
  · intro p c hi hc
    exact step_rep_iff hi hc
  · intro p c p' hi hc hs hp'
    exact step_inv hi hc hs hp'

/-- Two channels, on descriptors 5 and 6, before any call. -/
def pair : Poller (Fin 2) := ⟨fun i => Channel.new (5 + i), [], fun _ => none⟩

theorem pair_fresh : Fresh pair where
  chan _ := rfl
  inj := by decide
  pollfds := rfl
  channels _ := rfl

/-- The two channels after `EnableReading` on both. -/
def pairReading : Poller (Fin 2) :=
  added (added pair ⟨0, Nat.two_pos⟩ .enableReading) ⟨1, Nat.one_lt_two⟩ .enableReading

theorem pair_call_first : call pair (0, .enableReading) = .ok (added pair 0 .enableReading) :=
  call_new pair_fresh.inv (by decide)

theorem pair_call_second :
    call (added pair 0 .enableReading) (1, .enableReading) = .ok pairReading :=
  call_new (inv_added pair_fresh.inv (by decide)) (by decide)

theorem pairReading_inv : Inv pairReading :=
  inv_added (inv_added pair_fresh.inv (by decide)) (by decide)

/-- The second channel is disabled before the first one: nothing shifts. -/
theorem rep_along_pair : Along step (fun p c => ∃ p', call p c = .ok p' ∧ Rep p') pair
    [(0, .enableReading), (1, .enableReading), (1, .disbaleAll), (0, .enableWriting)] :=
  (rep_along_iff pair_fresh (by decide)).mpr (by decide)

/-- The first channel is disabled while the second one is live: the second one's position is
stale, and its next call trips the assertion on the position. -/
theorem shifted_pair : Fresh pair ∧
    Along step Legal pair [(0, .enableReading), (1, .enableReading), (0, .disbaleAll),
      (1, .enableWriting)] ∧
    ∃ p, run step pair [(0, .enableReading), (1, .enableReading), (0, .disbaleAll)] = some p ∧
      ¬ Rep p ∧ call p (1, .enableWriting) = .error .indexInRange := by
  refine ⟨pair_fresh, by decide, _, rfl, ?_, by rfl⟩
  intro hr
  obtain ⟨pfd, h, -⟩ := hr.live 1 (by decide) (by decide)
  cases h

end Calls

end Poller

end Polly
