import Conform.Proofs.MutationAttributes

/-!
# Building that gives no attributes

The loop around mutation takes copies, checks and takes copies over besides, and gives no more attributes than mutation
does. So values can be built with a fact again and again without giving any (`Fact.Modest.exec_build`), either because
nothing that is there takes attributes, or because it is members of enumerations that have been given none and the
fact stores only where it has read. A source of choices that varies goes on varying.
-/

namespace Conform

open Act
open Conform.Fact

namespace Arena

variable {A : Arena} {f : Fact} {v like : Value} {budget attempts : Int}

/-! ## The loop -/

theorem thrifty_log {level : Level} {logger message : String} : A.Thrifty (log level logger message) :=
  fun _ _ _ => .refl _

theorem thrifty_reportGivenUp {e : Fault} {last : Option Report} (hf : f.Formed) :
    A.Thrifty (reportGivenUp f v e last) := by
  refine thrifty_of_ungiving ?_
  unfold reportGivenUp
  cases last with
  | none => exact (ungiving_verify hf v).bind fun _ => quiet_pure.ungiving
  | some r => exact quiet_pure.ungiving

/-- Attempts give no attributes, nor does taking a copy over that has succeeded. -/
theorem thrifty_satisfyFrom (hA : A.Mutable) (hf : f.Frugal A) (hcopies : A.Copies f.stateful) :
    ∀ {left : Nat} {last : Report} {v : Value}, v.Within A.values → A.Thrifty (satisfyFrom f budget left last v) := by
  intro left
  induction left with
  | zero =>
    intro last v _
    exact thrifty_log.andThen runs_log fun _ _ => thrifty_of_quiet quiet_throw
  | succ left ih =>
    intro last v hv
    rw [satisfyFrom]
    refine (thrifty_of_ungiving ungiving_probe).andThen (frugal_probe hcopies hf) fun trial htrial => ?_
    have hmutate := careful_mutateWithin hA trial.depth trial v htrial.1 hv
    refine hmutate.thrifty.attempt.andThen hmutate.runs.attempt fun r hr => ?_
    cases r with
    | ok w =>
      have hw := hr.1 w rfl
      refine (thrifty_of_ungiving (ungiving_verify hf.formed w)).andThen (runs_verify hcopies hf.fits.probed hw)
        fun report _ => ?_
      have hanswer : Ungiving (do
          if 1 < budget - left then
            Act.log .debug satisfyLogger
              ("satisfy succeeded on attempt " ++ (toString (budget - left) ++ "/" ++ toString budget))
          return w) := by
        split
        · exact Ungiving.bind (fun _ => rfl) fun _ => quiet_pure.ungiving
        · exact quiet_pure.ungiving
      dsimp only
      split
      · split
        · exact thrifty_of_ungiving (ungiving_commitCells.bind fun _ => hanswer)
        · exact thrifty_of_ungiving hanswer
      · exact thrifty_log.andThen runs_log fun _ _ => ih hw
    | error e =>
      cases e with
      | exhausted fact reason lastCheck =>
        refine (thrifty_reportGivenUp hf.formed).andThen (runs_reportGivenUp hcopies hf.fits.probed hv)
          fun report _ => ?_
        exact thrifty_log.andThen runs_log fun _ _ => ih hv
      | _ => exact thrifty_of_quiet quiet_throw

/-- Building draws a value, and satisfies the fact with it. -/
theorem runs_build (hA : A.Mutable) (hstrict : ¬ A.strict) (hf : f.Fits A false) (hcopies : A.Copies f.stateful)
    (hfree : f.stateful = true → ∀ c ∈ f.cells, A.Free c) (hlike : like.Within A.values) :
    A.Runs (build f like attempts) fun y => y.Within A.values := by
  refine (runs_arbitrary hlike).bind fun v hv => ?_
  unfold satisfy
  split
  · exact runs_rethrow fun h => absurd h hstrict
  · exact runs_satisfyFrom_free hA hstrict hf hcopies hfree hv

theorem thrifty_build (hA : A.Mutable) (hf : f.Frugal A) (hcopies : A.Copies f.stateful)
    (hlike : like.Within A.values) : A.Thrifty (build f like attempts) := by
  have hdraw : A.Thrifty (Draw.arbitrary like) := thrifty_of_values fun _ => runs_arbitrary Value.within_univ
  refine hdraw.andThen (runs_arbitrary hlike) fun v hv => ?_
  unfold satisfy
  split
  · exact thrifty_of_quiet quiet_throw
  · exact thrifty_satisfyFrom hA hf hcopies hv

/-! ## Stores in which little takes attributes -/

/-- The arena of all objects, and of the attributes of some owners. -/
def ofOwners (s : Store) (owners : Set Owner) : Arena :=
  ⟨{p | ∀ o, p = .attributes o → o ∈ owners}, {p | ∀ o, p = .attributes o → o ∈ owners}, s, False⟩

theorem free_ofOwners {s : Store} {owners : Set Owner} {l : Loc} : (ofOwners s owners).Free l :=
  ⟨nofun, nofun⟩

theorem copyable_ofOwners {s : Store} {owners : Set Owner} : (ofOwners s owners).Copyable := fun _ ht l o hget w hw =>
  ht.closed (.object l) free_ofOwners.2 (.attributes w) ⟨o, hget, hw⟩

end Arena

namespace Fact

/-- Whether a fact gives no attributes in a store. All that objects of the store, accessors and recipes name and that
takes attributes is among some enumerations that have been given none; if there are any, the fact stores parts only
where it has read some. -/
structure Modest (f : Fact) (s : Store) (owners : Set Owner) : Prop where
  closed : s.Closed (Arena.ofOwners s owners).values
  barren : ∀ o ∈ owners, s.Barren o
  accessors : ∀ n ∈ f.everyNode, ∀ a ∈ n.accessor?, ∀ t, a.Fits (Arena.ofOwners t owners)
  generators : ∀ n ∈ f.everyNode, Draws (Arena.ofOwners s owners) n.generator?
  overwrites : owners = ∅ ∨ ∀ n ∈ f.everyNode, n.Overwrites

namespace Modest

variable {f : Fact} {s : Store} {owners : Set Owner} {w : World} {like : Value}

theorem holds (h : f.Modest s owners) (ho : s.Owned) : (Arena.ofOwners s owners).Holds s where
  closed := h.closed
  slots := fun _ _ _ _ _ _ => Arena.free_ofOwners.1
  fresh := fun _ _ => Arena.free_ofOwners
  owned := ho
  frame := .refl _ _

theorem fits (h : f.Modest s owners) (hf : f.Formed) : f.Fits (Arena.ofOwners s owners) false := by
  have hnode : ∀ n ∈ f.everyNode, ∀ copied, NodeFits (Arena.ofOwners s owners) copied n := fun n hn _ =>
    ⟨fun _ => Arena.free_ofOwners.readable, fun a ha => h.accessors n hn a ha s, h.generators n hn⟩
  have hcopied : f.Fits (Arena.ofOwners s owners) true :=
    Fits.of_nodes hf (fun _ => ⟨Arena.copyable_ofOwners, rfl⟩)
      (fun n hn => hnode n (List.mem_append_left _ hn) true) fun n hn => hnode n (List.mem_append_right _ hn) false
  -- a copy that stays where it is
  have hmove := hcopied.move (m := id) fun _ _ => Arena.free_ofOwners
  rwa [Fact.move_id] at hmove

/-- Building gives no attributes, and leaves no object that names more owners of attributes than there were. -/
theorem exec_build (attempts : Int) (h : f.Modest w.store owners) (hf : f.Formed) (hw : w.store.Owned)
    (hlike : like.Within (Arena.ofOwners w.store owners).values) :
    (Arena.ofOwners w.store owners).Holds (exec (build f like attempts) w).2.store ∧
      (exec (build f like attempts) w).2.store.given = w.store.given ∧
      (w.source.isFixed = false → (exec (build f like attempts) w).2.source.isFixed = false) := by
  have hmutable : (Arena.ofOwners w.store owners).Mutable := fun _ hp => hp
  have hfree : f.stateful = true → ∀ c ∈ f.cells, (Arena.ofOwners w.store owners).Free c := fun _ _ _ =>
    Arena.free_ofOwners
  have hcopies : (Arena.ofOwners w.store owners).Copies f.stateful := fun _ => Arena.copyable_ofOwners
  have hruns : (Arena.ofOwners w.store owners).Runs (build f like attempts) _ :=
    Arena.runs_build hmutable id (h.fits hf) hcopies hfree hlike
  obtain ⟨hholds, -, -, hvaries⟩ := hruns w (h.holds hw)
  refine ⟨hholds, ?_, hvaries⟩
  rcases h.overwrites with rfl | hoverwrites
  · exact hholds.frame.ungiven fun o ho => ho o rfl
  · exact Arena.thrifty_build hmutable ⟨h.fits hf, hf, hoverwrites⟩ hcopies hlike w (h.holds hw) fun o ho =>
      h.barren o (ho o rfl)

/-- A fact gives no attributes later either, if none have been given and no more owners are named. -/
theorem keep {t : Store} (h : f.Modest s owners) (ht : (Arena.ofOwners s owners).Holds t) (hgiven : t.given = s.given) :
    f.Modest t owners :=
  ⟨ht.closed, fun o ho => (h.barren o ho).keep (.of_given hgiven), h.accessors, h.generators, h.overwrites⟩

end Modest

end Fact

end Conform
