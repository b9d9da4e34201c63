import EventUpload.Proofs.Lifecycle.Outstanding
import EventUpload.Proofs.Lifecycle.ProcessEnd

/-!
# Hosts that drop a call

A host that is not interested in an answer any longer drops the call (`Run.Drops`): that is what losing
patience with it comes to, at whatever instant. A run is `Hasty` if it is like a genuine one, but its
host may drop the end of an invocation while it waits. That leaves a hasty run as orderly as a genuine
one, and its ledger of warnings as true, since the end of an invocation has said nothing about uploads
before it is over (`Hasty.keeps`).

Dropping the wait before an invocation is not among the things that may happen in a hasty run. It leaves
a phase for which no call is waiting (`Lifecycle/DroppedWait`), and a run would not be orderly any more.
A theorem about dropping that wait therefore starts from a hasty run and looks at the run after one
`Drops`.

The runs of this module contain the genuine ones (`Genuine.hasty`), so what is proved of them holds for
hosts that wait as well. `Hasty.keeps` is the induction: besides preparations and conclusions there is
one more case, in which the errand of a wait is struck out without a word. `Proceeds` is one thing that
happens, with no restriction on what comes next; "whatever happens" in the theorems about dropped calls
and cut waits is `ReflTransGen Proceeds`.
-/

set_option autoImplicit false

namespace EventUpload

open List (Forall₂)
open Relation (ReflTransGen)
open Lifecycle

namespace Run

/-- The host loses patience with a call that is waiting, and drops it. -/
inductive Drops (call : Call) (r : Run) : Run → Prop where
  | drop {earlier later : List Pending} : r.calls = earlier ++ .waiting call none :: later →
      Drops call r ⟨(giveUp r.lifecycle call (some r.lifecycle.now)).1,
        earlier ++ (giveUp r.lifecycle call (some r.lifecycle.now)).2 :: later⟩

/-- One thing happens in a run whose host may drop the end of an invocation. -/
inductive Proceeds (r : Run) : Run → Prop where
  | idles {s : Run} : r.Idles s → Proceeds r s
  | call (c : HostCall) : r.Admits c → c.Fresh → Proceeds r (r.call c.make none)
  | drop {s : Run} {call : Call} : call.role = .finish → r.Drops call s → Proceeds r s

/-- The run began with a new lifecycle, its sinks do what sinks do, and its host makes its calls one after
another; it may drop the end of an invocation. -/
def Hasty (r : Run) : Prop :=
  ∃ limits outside, ReflTransGen Proceeds (ofLifecycle (.new limits outside)) r

variable {r s t : Run} {call : Call} {k i : Nat}

/-! ## Dropping -/

theorem giveUp_now (l : Lifecycle) (call : Call) :
    giveUp l call (some l.now) = (l.drop call, .finished (.dropped l.now)) := by
  simp [giveUp]

theorem Drops.split (h : r.Drops call s) : s.lifecycle = r.lifecycle.drop call ∧
    ∃ earlier later, r.calls = earlier ++ .waiting call none :: later ∧
      s.calls = earlier ++ .finished (.dropped r.lifecycle.now) :: later := by
  obtain ⟨hcalls⟩ := h
  rw [giveUp_now]
  exact ⟨rfl, _, _, hcalls, rfl⟩

theorem drop_finish (hrole : call.role = .finish) (l : Lifecycle) : l.drop call = l.leaveClosing := by
  cases call with
  | finish index start deadline noticed longest nextWord => rfl
  | reconcile index grace deadline => exact absurd hrole (by simp [Call.role])
  | settle index grace deadline ending => exact absurd hrole (by simp [Call.role])

theorem errand_finish (hrole : call.role = .finish) : ∃ i, call.errand = (i, .wait) := by
  cases call with
  | finish index start deadline noticed longest nextWord => exact ⟨index, rfl⟩
  | reconcile index grace deadline => exact absurd hrole (by simp [Call.role])
  | settle index grace deadline ending => exact absurd hrole (by simp [Call.role])

/-- The end of an invocation is dropped: its role and its errand are given up. -/
theorem Drops.finish (h : r.Drops call s) (hrole : call.role = .finish) :
    s.lifecycle = r.lifecycle.leaveClosing ∧
      (∃ before after, r.roles = before ++ .finish :: after ∧ s.roles = before ++ after) ∧
      ∃ i before after, r.errands = before ++ (i, .wait) :: after ∧ s.errands = before ++ after := by
  obtain ⟨hdropped, earlier, later, hcalls, hleft⟩ := h.split
  obtain ⟨i, herrand⟩ := errand_finish hrole
  refine ⟨hdropped.trans (drop_finish hrole _), ⟨_, _, ?_, roles_split hleft⟩, i, _, _, ?_,
    errands_split hleft⟩
  · rw [roles_split hcalls, ← hrole]
    rfl
  · rw [errands_split hcalls, ← herrand]
    rfl

/-! ## What hasty runs keep -/

theorem Genuine.hasty (h : r.Genuine) : r.Hasty := by
  induction h with
  | new limits outside => exact ⟨limits, outside, .refl⟩
  | idles _ hs ih =>
    obtain ⟨limits, outside, hr⟩ := ih
    exact ⟨limits, outside, hr.tail (.idles hs)⟩
  | call c _ hc hfresh ih =>
    obtain ⟨limits, outside, hr⟩ := ih
    exact ⟨limits, outside, hr.tail (.call c hc hfresh)⟩

theorem Proceeds.orderly (h : r.Proceeds s) (ho : Orderly r.lifecycle r.roles) :
    Orderly s.lifecycle s.roles := by
  cases h with
  | idles hs => exact hs.orderly ho
  | call c hc _ =>
    rw [lifecycle_call, roles_call]
    exact hc.orderly ho
  | drop hrole hd =>
    obtain ⟨hdropped, ⟨before, after, hroles, hleft⟩, -⟩ := hd.finish hrole
    rw [hroles] at ho
    rw [hdropped, hleft]
    exact ho.dismissFinish before after

theorem Proceeds.patient (h : r.Proceeds s) (hp : Patient r.calls) : Patient s.calls := by
  cases h with
  | idles hs => exact hs.patient hp
  | call c _ _ => exact hp.call c
  | drop _ hd =>
    obtain ⟨-, earlier, later, hcalls, hleft⟩ := hd.split
    rw [hcalls] at hp
    rw [hleft]
    exact hp.replace fun call patience heq => absurd heq (by simp)

/-- What preparing and concluding keep, and the end of an invocation that leaves without a word, is kept by
whatever happens. -/
theorem Proceeds.keeps {P : Lifecycle × List (Nat × Retirer) → Prop}
    (prepares : ∀ {p q}, P p → Prepares p q → P q)
    (concludes : ∀ {p q ws}, P p → Concludes p q ws → P q)
    (leaves : ∀ {l : Lifecycle} {before after : List (Nat × Retirer)} {i : Nat},
      P (l, before ++ (i, .wait) :: after) → P (l.leaveClosing, before ++ after))
    (h : r.Proceeds s) (ho : Orderly r.lifecycle r.roles) (hP : P (r.lifecycle, r.errands)) :
    P (s.lifecycle, s.errands) := by
  cases h with
  | idles hs =>
    obtain ⟨ws, hws⟩ := hs.concludes
    exact concludes hP hws
  | call c hc hfresh =>
    obtain ⟨p, ws, hp, hws⟩ := hc.comesTo hfresh ho
    refine concludes ?_ hws
    clear hws
    induction hp with
    | refl => exact hP
    | tail _ hstep ih => exact prepares ih hstep
  | drop hrole hd =>
    obtain ⟨hdropped, -, i, before, after, herrands, hleft⟩ := hd.finish hrole
    rw [herrands] at hP
    rw [hdropped, hleft]
    exact leaves hP

theorem proceeds_asked (r : Run) (ending : Ending) : r.Proceeds (r.asked ending) := by
  refine .call ending.call ?_ ?_
  · cases ending <;> exact trivial
  · cases ending <;> exact trivial

/-- What is prepared or concluded leaves published what was published. -/
theorem published_of_prepares {p q : Lifecycle × List (Nat × Retirer)} (hp : Prepares p q)
    (hi : .published i ∈ p.1.journal) : .published i ∈ q.1.journal := by
  cases hp with
  | hush hm => exact hm.journal ▸ hi
  | start _ => exact hi
  | publish _ _ _ _ => exact List.mem_append_left _ hi
  | ask _ _ => exact hi

theorem published_of_concludes {p q : Lifecycle × List (Nat × Retirer)} {ws : List Warning}
    (hc : Concludes p q ws) (hi : .published i ∈ p.1.journal) : .published i ∈ q.1.journal := by
  cases hc with
  | hush hm => exact hm.journal ▸ hi
  | drain _ hr => exact (Voiced.published_retired hr).mpr hi
  | errand _ hr => exact (Voiced.published_retired hr).mpr hi
  | cut hm hn =>
    rw [hn.journal]
    exact hm.journal ▸ hi
  | vacuous _ hm => exact hm.journal ▸ hi

theorem Proceeds.published (h : r.Proceeds s) (ho : Orderly r.lifecycle r.roles)
    (hi : .published i ∈ r.lifecycle.journal) : .published i ∈ s.lifecycle.journal :=
  h.keeps (P := fun p => .published i ∈ p.1.journal) (fun hp hq => published_of_prepares hq hp)
    (fun hp hq => published_of_concludes hq hp)
    (fun {l _ _ _} hp => (hush_leaveClosing l).journal.symm ▸ hp) ho hi

namespace Hasty

theorem proceeds (h : r.Hasty) (hs : r.Proceeds s) : s.Hasty := by
  obtain ⟨limits, outside, hr⟩ := h
  exact ⟨limits, outside, hr.tail hs⟩

theorem of_proceeds (h : r.Hasty) (hs : ReflTransGen Proceeds r s) : s.Hasty := by
  obtain ⟨limits, outside, hr⟩ := h
  exact ⟨limits, outside, hr.trans hs⟩

/-- What holds of a new lifecycle, and is kept by whatever happens, holds of every hasty run. -/
theorem induct {P : Run → Prop} (new : ∀ limits outside, P (ofLifecycle (.new limits outside)))
    (step : ∀ {r s : Run}, r.Hasty → P r → r.Proceeds s → P s) (h : r.Hasty) : P r := by
  obtain ⟨limits, outside, hr⟩ := h
  have hboth : r.Hasty ∧ P r := by
    induction hr with
    | refl => exact ⟨⟨limits, outside, .refl⟩, new limits outside⟩
    | tail _ hs ih => exact ⟨ih.1.proceeds hs, step ih.1 ih.2 hs⟩
  exact hboth.2

/-- **Every hasty run is orderly.** -/
theorem orderly (h : r.Hasty) : Orderly r.lifecycle r.roles :=
  h.induct (P := fun r => Orderly r.lifecycle r.roles) .new fun _ ho hs => hs.orderly ho

theorem patient (h : r.Hasty) : Patient r.calls :=
  h.induct (P := fun r => Patient r.calls) (fun _ _ _ _ hmem => absurd hmem (by simp [ofLifecycle]))
    fun _ hp hs => hs.patient hp

theorem of_idles (h : r.Hasty) (hs : ReflTransGen Idles r s) : s.Hasty :=
  h.of_proceeds (ReflTransGen.mono (fun _ _ => Proceeds.idles) _ _ hs)

theorem published_of_proceeds (h : r.Hasty) (hs : ReflTransGen Proceeds r s)
    (hi : .published i ∈ r.lifecycle.journal) : .published i ∈ s.lifecycle.journal := by
  induction hs with
  | refl => exact hi
  | tail hrt hs ih => exact hs.published (h.of_proceeds hrt).orderly ih

/-- What goes on by itself is something that happens. -/
theorem closed (h : r.Hasty) : Closed (ReflTransGen Proceeds r) where
  nodup := fun hs => (h.of_proceeds hs).orderly.drains.1
  sinks := fun hs => hs.trans (ReflTransGen.mono (fun _ _ => Proceeds.idles) _ _ (idles_afterSinks _ _))
  drain := fun hi hs => hs.tail (.idles (.stirs (.drain hi)))
  time := fun hle hs => hs.tail (.idles (.stirs (.time hle)))
  look := fun hs => hs.tail (.idles (.look rfl))
  word := fun hs => hs.tail (.idles (.word rfl))
  forget := fun hs => hs.tail (.idles .forget)

/-- From one instant to another. -/
theorem proceeds_arrival (h : r.Hasty) (d : Nat) : ReflTransGen Proceeds r (r.arrival d) :=
  (h.closed.arrival .refl h.patient d).1

theorem proceeds_settle (h : r.Hasty) : ReflTransGen Proceeds r r.settle :=
  (h.closed.settleRounds _ .refl h.patient).1

theorem settle (h : r.Hasty) : r.settle.Hasty := h.of_proceeds h.proceeds_settle

theorem arrival (h : r.Hasty) (d : Nat) : (r.arrival d).Hasty := h.of_proceeds (h.proceeds_arrival d)

theorem asked (h : r.Hasty) (ending : Ending) : (r.asked ending).Hasty :=
  h.proceeds (proceeds_asked r ending)

/-- What is kept by whatever happens, holds of every hasty run. -/
theorem keeps {P : Lifecycle × List (Nat × Retirer) → Prop}
    (new : ∀ limits outside, P (.new limits outside, []))
    (prepares : ∀ {p q}, P p → Prepares p q → P q)
    (concludes : ∀ {p q ws}, P p → Concludes p q ws → P q)
    (leaves : ∀ {l : Lifecycle} {before after : List (Nat × Retirer)} {i : Nat},
      P (l, before ++ (i, .wait) :: after) → P (l.leaveClosing, before ++ after))
    (h : r.Hasty) : P (r.lifecycle, r.errands) :=
  h.induct (P := fun r => P (r.lifecycle, r.errands)) new fun hr hP hs =>
    hs.keeps prepares concludes leaves hr.orderly hP

/-- **The ledger of a hasty run** is as true as that of a genuine one, and what it has cleared away is
over. -/
theorem voiced (h : r.Hasty) :
    (∃ ws, Voiced r.lifecycle r.errands ws) ∧ r.lifecycle.OverOnceCleared := by
  refine h.keeps (P := fun p => (∃ ws, Voiced p.1 p.2 ws) ∧ p.1.OverOnceCleared) ?_ ?_ ?_ ?_
  · exact fun limits outside => ⟨⟨[], .new limits outside⟩, .new limits outside⟩
  · rintro p q ⟨⟨ws, hl⟩, hover⟩ hp
    exact ⟨⟨ws, hl.prepares hp⟩, hover.prepares hl hp⟩
  · rintro p q more ⟨⟨ws, hl⟩, hover⟩ hc
    exact ⟨⟨_, hl.concludes hc⟩, hover.concludes hl.sound hc⟩
  · rintro l before after i ⟨⟨ws, hl⟩, hover⟩
    have hleave := hush_leaveClosing l
    exact ⟨⟨ws, (hl.hush hleave).fewer Voiced.sublist_errands⟩, hover.hush hleave⟩

end Hasty

end Run

end EventUpload
