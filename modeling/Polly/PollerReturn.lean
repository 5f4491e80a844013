import Polly.Poller

/-!
# PollerReturn — a channel that is disabled and enabled again

One channel of a poller goes through any sequence of interest calls; nothing is assumed of the other
channels but that no other entry has its descriptor.  When the mask becomes zero `UpdateChannel`
erases the entry and keeps the channel's `index_`, so to the next call the channel is not a new one,
and the assertion that it is in `channels_` fails.

* `tracked_along_iff`: every call passes and leaves exactly the entry the mask asks for, exactly if
  no call finds the mask at zero.
-/

namespace Polly.Poller

open Runs

variable {ι : Type*} {p : Poller ι} {i : ι} {op : Interest}

/-- The table has an entry with the channel's descriptor exactly if its mask is not zero: one, with
the mask as its events. -/
structure Tracked (p : Poller ι) (i : ι) : Prop where
  present : (∃ pfd ∈ p.pollfds, pfd.fd = (p.chan i).fd) ↔ (p.chan i).events ≠ 0#32
  single : (p.chan i).events ≠ 0#32 →
    ∃ pfd, p.pollfds.filter (fun pfd => pfd.fd = (p.chan i).fd) = [pfd] ∧
      pfd.events.signExtend 32 = (p.chan i).events

/-- The channel has been taken out of the poller. -/
structure Gone (p : Poller ι) (i : ι) : Prop where
  index : 0 ≤ (p.chan i).index
  events : (p.chan i).events = 0#32
  unmapped : p.channels (p.chan i).fd = none

/-- In a table without duplicates an entry is the only one with its descriptor. -/
theorem filter_fd_eq {pollfds : List PollFd} {pfd : PollFd}
    (hnd : (pollfds.map PollFd.fd).Nodup) (hmem : pfd ∈ pollfds) :
    pollfds.filter (fun e => e.fd = pfd.fd) = [pfd] := by
  induction pollfds with
  | nil => cases hmem
  | cons e rest ih =>
    rw [List.map_cons, List.nodup_cons] at hnd
    rcases List.mem_cons.mp hmem with rfl | hrest
    · rw [List.filter_cons_of_pos (by simp), List.filter_eq_nil_iff.mpr]
      intro e he hfd
      exact hnd.1 (List.mem_map.mpr ⟨e, he, of_decide_eq_true hfd⟩)
    · have hne : e.fd ≠ pfd.fd := fun hfd => hnd.1 (List.mem_map.mpr ⟨pfd, hrest, hfd.symm⟩)
      rw [List.filter_cons_of_neg (by simpa using hne)]
      exact ih hnd.2 hrest

theorem Seated.tracked (h : Seated p i) (he : (p.chan i).events ≠ 0#32) : Tracked p i := by
  obtain ⟨pfd, hget, hfd, hev⟩ := h.entry
  have hmem := List.mem_of_getElem? hget
  refine ⟨iff_of_true ⟨pfd, hmem, hfd⟩ he, fun _ => ⟨pfd, ?_, hev⟩⟩
  rw [← hfd]
  exact filter_fd_eq h.nodup hmem

section Calls

variable [DecidableEq ι]

theorem seated_changed (h : Seated p i) : Seated (changed p i op) i := by
  obtain ⟨pfd, hget, -, -⟩ := h.entry
  obtain ⟨hlt, -⟩ := List.getElem?_eq_some_iff.mp hget
  have hchan : (changed p i op).chan i = op.apply (p.chan i) := Function.update_self ..
  refine ⟨?_, ?_, ?_, ?_, ?_⟩
  · rw [hchan, Interest.apply_index]
    exact h.index
  · rw [hchan]
    exact op.apply_isMask h.mask
  · rw [hchan, Interest.apply_fd]
    exact h.mapped
  · rw [hchan, Interest.apply_index, Interest.apply_fd]
    exact ⟨_, List.getElem?_set_self hlt, rfl, (op.apply_isMask h.mask).cast_short⟩
  · rw [changed_fds h]
    exact h.nodup

theorem removed_gone (h : Seated p i) (hop : (op.apply (p.chan i)).events = 0#32) :
    Gone (removed p i op) i ∧ Tracked (removed p i op) i := by
  have hchan : (removed p i op).chan i = op.apply (p.chan i) := Function.update_self ..
  have hev : ((removed p i op).chan i).events = 0#32 := by rw [hchan, hop]
  refine ⟨⟨?_, hev, ?_⟩, ⟨?_, fun hne => absurd hev hne⟩⟩
  · rw [hchan, Interest.apply_index]
    exact h.index
  · rw [hchan, Interest.apply_fd]
    exact Function.update_self ..
  · refine iff_of_false ?_ fun hne => hne hev
    rintro ⟨pfd, hmem, hfd⟩
    have hin : pfd.fd ∈ (removed p i op).pollfds.map PollFd.fd := List.mem_map_of_mem hmem
    rw [removed_fds h, h.nodup.mem_erase_iff, hfd, hchan, Interest.apply_fd] at hin
    exact hin.1 rfl

/-- Every later call of a channel that was taken out fails: its `index_` says that it is known. -/
theorem call_gone (h : Gone p i) : call p (i, op) = .error .present := by
  simp [call, updateChannel, not_lt.mpr h.index, h.unmapped]

/-- **One call.**  A registered channel is served as its mask asks. -/
theorem call_seated (op : Interest) (h : Seated p i) :
    ∃ p', call p (i, op) = .ok p' ∧ Tracked p' i ∧
      ((p'.chan i).events ≠ 0#32 → Seated p' i) ∧ ((p'.chan i).events = 0#32 → Gone p' i) := by
  by_cases hop : (op.apply (p.chan i)).events = 0#32
  · obtain ⟨hgone, htracked⟩ := removed_gone h hop
    exact ⟨_, call_remove h hop, htracked, fun hne => absurd hgone.events hne, fun _ => hgone⟩
  · have hseated : Seated (changed p i op) i := seated_changed h
    have hchan : (changed p i op).chan i = op.apply (p.chan i) := Function.update_self ..
    have hne : ((changed p i op).chan i).events ≠ 0#32 := by rwa [hchan]
    exact ⟨_, call_update h hop, hseated.tracked hne, fun _ => hseated, fun h0 => absurd h0 hne⟩

/-- **A channel can come back** only while it is not gone: for a channel registered with some
interest and any sequence of calls on it, every call passes its assertions and leaves exactly the
entry the mask asks for, if and only if no call is made while the mask is zero. -/
theorem tracked_along_iff (h : Seated p i) (he : (p.chan i).events ≠ 0#32) (ops : List Interest) :
    Along step (fun p c => ∃ p', call p c = .ok p' ∧ Tracked p' i) p (ops.map (i, ·)) ↔
      Along step (fun p _ => (p.chan i).events ≠ 0#32) p (ops.map (i, ·)) := by
  have hown : Along step (fun _ c => c.1 = i) p (ops.map (i, ·)) := by
    refine along_of_forall p fun c hc => ?_
    obtain ⟨op, -, rfl⟩ := List.mem_map.mp hc
    rfl
  refine along_iff (L := fun _ c => c.1 = i)
    (I := fun p => ((p.chan i).events ≠ 0#32 → Seated p i) ∧
      ((p.chan i).events = 0#32 → Gone p i)) ?_ ?_ hown ⟨fun _ => h, fun h0 => absurd h0 he⟩
  · rintro p ⟨j, op⟩ ⟨hseated, hgone⟩ rfl
    constructor
    · rintro ⟨p', hp', -⟩ h0
      rw [call_gone (hgone h0)] at hp'
      cases hp'
    · intro hne
      obtain ⟨p', hp', htracked, -⟩ := call_seated op (hseated hne)
      exact ⟨p', hp', htracked⟩
  · rintro p ⟨j, op⟩ p' ⟨hseated, -⟩ rfl hne hstep
    obtain ⟨p'', hp'', -, hnext⟩ := call_seated op (hseated hne)
    rw [step_some.mp hstep] at hp''
    cases hp''
    exact hnext

/-- Writing is enabled and disabled several times beside reading, and all interest given up at
last. -/
theorem tracked_along_reading : Along step
    (fun p c => ∃ p', call p c = .ok p' ∧ Tracked p' 0) pairReading
    (List.map (0, ·) [.enableWriting, .disableWriting, .enableWriting, .disbaleAll]) :=
  (tracked_along_iff (pairReading_inv.seated (by decide) (by decide)) (by decide) _).mpr (by decide)

/-- A channel that was registered by `EnableWriting` gives writing up and wants it back. -/
theorem not_tracked_writing :
    ∃ p, run step pair [(0, .enableWriting)] = some p ∧ Seated p 0 ∧
      (p.chan 0).events ≠ 0#32 ∧
      ∃ p', run step p [(0, .disableWriting)] = some p' ∧
        call p' (0, .enableWriting) = .error .present := by
  have hnew : (pair.chan 0).index < 0 := by decide
  have hinv : Inv (added pair 0 .enableWriting) := inv_added pair_fresh.inv hnew
  have hcall : call pair (0, .enableWriting) = .ok (added pair 0 .enableWriting) :=
    call_new pair_fresh.inv hnew
  refine ⟨_, run_cons_some.mpr ⟨_, step_some.mpr hcall, rfl⟩, ?_, by decide, _, rfl, rfl⟩
  exact hinv.seated (by decide) (by decide)

end Calls

end Polly.Poller
