import EventUpload.Proofs.Lifecycle.Genuine
import EventUpload.Proofs.Sink.GivingUp

/-!
# Giving up published uploads

The uploads of an invocation are published as two maps over the same sinks, one with the entries of the
ends and one with those of the half-closes. Cancelling a map cancels its entries one after the other
(`Lifecycle.cancelMap`), so every sink is reached twice. Giving an invocation up is cancelling both maps
(`Lifecycle.cancelMaps_eq`). It takes no time, whatever the sinks are doing, and where they are channels
it leaves nothing behind that could still happen (`Lifecycle.giveUp_channels`).

The lifecycle has one operation where two maps are cancelled, because by then a sink has only one thing
to lose: the entry that is cancelled first takes the worker with it, and what the second one finds is a
timer (`cancelEntry_cancelEntry`). The order of the two maps and of the entries does not matter to what
is left, only to who is first, and between sinks that share nothing it cannot be observed.

The theorem asks for channels because of what it says last, that there is nothing left to happen. A sink
that answers by itself may have an answer under way that nobody waits for; a channel whose worker has
been stopped has nothing.
-/

set_option autoImplicit false

namespace EventUpload

open List (Forall₂)

namespace Sink

/-- Cancels an entry of a map: its timer is stopped, if it has one, and the sink is cancelled. -/
def cancelEntry (half : Bool) (s : Sink) (outside : Outside) : Sink × Outside :=
  (s.stopTimer half).cancel outside

theorem cancelEntry_snd (half : Bool) (s : Sink) (outside : Outside) :
    (s.cancelEntry half outside).2 = (s.giveUp outside).2 := by
  rw [cancelEntry, stopTimer, cancel_watched, giveUp_eq]

/-- Cancelling the second entry of a sink finds it cancelled, and only stops a timer. -/
theorem cancelEntry_cancelEntry (s : Sink) (outside outside' : Outside) :
    (s.cancelEntry false outside).1.cancelEntry true outside' = ((s.giveUp outside).1, outside') := by
  rw [cancelEntry, cancelEntry, stopTimer_cancel, cancel_cancel, stopTimer_stopTimer, giveUp]

end Sink

namespace Lifecycle

variable {l : Lifecycle} {i : Nat} {v : Invocation}

/-! ## Two maps -/

/-- Cancels the entries of a map, one after the other. -/
def cancelMap (half : Bool) : List Sink → Outside → List Sink × Outside :=
  overSinks (Sink.cancelEntry half)

/-- Cancels the map of the ends, and then the map of the half-closes. -/
def cancelMaps (sinks : List Sink) (outside : Outside) : List Sink × Outside :=
  let (sinks, outside) := cancelMap false sinks outside
  cancelMap true sinks outside

/-- Going over some sinks and then over all of them again, which no longer reaches outside. -/
theorem overSinks_twice {f g h : Sink → Outside → Sink × Outside}
    (hfirst : ∀ s outside, (f s outside).2 = (h s outside).2)
    (hboth : ∀ s outside outside', g (f s outside).1 outside' = ((h s outside).1, outside'))
    (sinks : List Sink) (outside outside' : Outside) :
    (overSinks f sinks outside).2 = (overSinks h sinks outside).2 ∧
      overSinks g (overSinks f sinks outside).1 outside' = ((overSinks h sinks outside).1, outside') := by
  induction sinks generalizing outside outside' with
  | nil => exact ⟨rfl, rfl⟩
  | cons s rest ih =>
    obtain ⟨hsnd, hrest⟩ := ih (h s outside).2 outside'
    simp only [overSinks, hfirst, hboth, hsnd, hrest, and_self]

/-- Cancelling both maps gives the sinks up. -/
theorem cancelMaps_eq (sinks : List Sink) (outside : Outside) :
    cancelMaps sinks outside = overSinks Sink.giveUp sinks outside := by
  obtain ⟨hsnd, htwice⟩ := overSinks_twice (f := Sink.cancelEntry false) (g := Sink.cancelEntry true)
    (h := Sink.giveUp) (Sink.cancelEntry_snd false) Sink.cancelEntry_cancelEntry sinks outside
      (overSinks Sink.giveUp sinks outside).2
  simp only [cancelMaps, cancelMap, hsnd, htwice]

/-! ## Giving up for good -/

theorem overSinks_of_rest {f : Sink → Outside → Sink × Outside} {sinks : List Sink}
    (h : ∀ s ∈ sinks, ∀ outside, f s outside = (s, outside)) (outside : Outside) :
    overSinks f sinks outside = (sinks, outside) := by
  induction sinks with
  | nil => rfl
  | cons s rest ih =>
    simp only [overSinks, h s (by simp) outside, ih fun t ht => h t (List.mem_cons_of_mem _ ht)]

/-- An invocation of which the sinks have nothing to give up stays as it is. -/
theorem giveUp_of_rest (hv : l.invocation? i = some v)
    (h : ∀ s ∈ v.sinks, ∀ outside, s.giveUp outside = (s, outside)) : l.giveUp i = l := by
  have hsame : l.invocations.modify i (·.withSinks v.sinks) = l.invocations := by
    refine List.ext_getElem? fun k => ?_
    rw [List.getElem?_modify]
    split
    · next hk =>
      subst hk
      rw [show l.invocations[i]? = some v from hv]
      rfl
    · simp
  rw [giveUp_of_some hv, overSinks_of_rest h, update, hsame]

/-- **Giving up an invocation over channels**, at every moment and with any bounds. It happens at once,
and only to the sinks and to what they hold outside; it is cancelling the map of the ends and then the one
of the half-closes; what has become of every sink is over; and there is nothing to be given up once more. -/
theorem giveUp_channels (hv : l.invocation? i = some v) (hchannels : ∀ s ∈ v.sinks, s.OverChannel) :
    ∃ sinks outside, l.giveUp i = { l.update i (·.withSinks sinks) with outside := outside } ∧
      cancelMaps v.sinks l.outside = (sinks, outside) ∧
      Forall₂ Sink.GivenUp v.sinks sinks ∧
      (l.giveUp i).giveUp i = l.giveUp i := by
  have hgiven : Forall₂ Sink.GivenUp v.sinks (overSinks Sink.giveUp v.sinks l.outside).1 :=
    forall₂_overSinks (fun s hs outside => s.givenUp (hchannels s hs) outside) l.outside
  have hw : (l.giveUp i).invocation? i =
      some (v.withSinks (overSinks Sink.giveUp v.sinks l.outside).1) := by
    rw [giveUp_of_some hv]
    exact invocation?_update_self hv _
  refine ⟨_, _, giveUp_of_some hv, cancelMaps_eq v.sinks l.outside, hgiven, giveUp_of_rest hw ?_⟩
  exact forall_overSinks (P := Sink.OverChannel)
    (Q := fun t => ∀ outside, t.giveUp outside = (t, outside))
    (fun h outside => (Sink.givenUp h outside).giveUp) hchannels l.outside

/-- An invocation over three channels. The first has no bound, and its destination never ends writing an
event; the second is closed and never ends flushing; the third is done, and its timers have seen it. -/
def threeUploads : Lifecycle :=
  let stuck : Destination := .model (fun _ _ => (none, .ok)) 0
  let quick : Destination := .model (fun _ _ => (some 0, .ok)) 0
  let turn : Channel.Act := .work .fresh 0
  { Lifecycle.new .standard .fresh with invocations := [⟨⟨"b", "i"⟩, .new [
      ⟨0, .channel (Channel.trace "a" stuck [.accept (.ofPayload "progress" .null), turn]).channel, none⟩,
      ⟨2000, .channel (Channel.trace "b" stuck [.close, turn]).channel, some ⟨2000, .unresolved⟩⟩,
      ⟨500, .channel (Channel.trace "c" quick [.close, turn, turn, turn]).channel,
        some ⟨500, ⟨some .done, some .done⟩⟩⟩], .blocking⟩] }

/-- Two of the three are cancelled, each in its own name, and the one that was done stays so. -/
theorem giveUp_channels_threeUploads :
    let both (v : Invocation) := v.sinks.map fun s => (s.shown false, s.shown true)
    ∃ v, threeUploads.invocation? 0 = some v ∧ (∀ s ∈ v.sinks, s.OverChannel) ∧
      both v = [(none, none), (none, none), (some .done, some .done)] ∧
      ∃ sinks outside, threeUploads.giveUp 0 =
          { threeUploads.update 0 (·.withSinks sinks) with outside := outside } ∧
        Forall₂ Sink.GivenUp v.sinks sinks ∧
        both (v.withSinks sinks) =
          [(some (.failed (.cancelled "a")), some (.failed (.cancelled "a"))),
            (some (.failed (.cancelled "b")), some (.failed (.cancelled "b"))),
            (some .done, some .done)] ∧
        (threeUploads.giveUp 0).giveUp 0 = threeUploads.giveUp 0 := by
  intro both
  have hchannels : ∀ s ∈ (threeUploads.invocations[0]).sinks, s.OverChannel := by
    intro s hs
    rcases List.mem_cons.mp hs with rfl | hs
    · exact ⟨_, _, _, rfl⟩
    · rcases List.mem_cons.mp hs with rfl | hs
      · exact ⟨_, _, _, rfl⟩
      · exact ⟨_, _, _, congrArg Sink.body (List.mem_singleton.mp hs)⟩
  obtain ⟨sinks, outside, heq, hmaps, hgiven, hagain⟩ :=
    giveUp_channels (l := threeUploads) (i := 0) rfl hchannels
  have hsinks : sinks = (overSinks Sink.giveUp threeUploads.invocations[0].sinks .fresh).1 := by
    rw [cancelMaps_eq] at hmaps
    exact congrArg Prod.fst hmaps.symm
  exact ⟨_, rfl, hchannels, rfl, sinks, outside, heq, hgiven, by rw [hsinks]; rfl, hagain⟩

end Lifecycle

end EventUpload
