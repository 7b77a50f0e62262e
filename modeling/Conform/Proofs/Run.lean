import Conform.World

/-!
# Running actions

`Act.exec` runs an action in a world: what it ends with, and the world afterwards. The lemmas of this
file say how every way of putting actions together runs; later proofs use them and do not look into
the layers that actions are made of.
-/

namespace Conform.Act

variable {α β : Type}

/-- What an action ends with in a world, and the world after it. -/
def exec (a : Act α) (w : World) : Except Fault α × World := (ExceptT.run a).run w

@[simp] theorem exec_pure (x : α) (w : World) : exec (pure x) w = (.ok x, w) := rfl

@[simp] theorem exec_throw (f : Fault) (w : World) : exec (throw f : Act α) w = (.error f, w) := rfl

theorem exec_bind (a : Act α) (f : α → Act β) (w : World) :
    exec (a >>= f) w =
      match exec a w with
      | (.ok x, u) => exec (f x) u
      | (.error e, u) => (.error e, u) := by
  show (ExceptT.bind a f : World → _) w = _
  unfold exec
  simp only [ExceptT.bind, ExceptT.mk, ExceptT.run, StateT.run, bind, StateT.bind, ExceptT.bindCont]
  cases (a w : Except Fault α × World) with
  | mk r u => cases r <;> rfl

theorem exec_tryCatch (a : Act α) (h : Fault → Act α) (w : World) :
    exec (tryCatch a h) w =
      match exec a w with
      | (.ok x, u) => (.ok x, u)
      | (.error e, u) => exec (h e) u := by
  show (ExceptT.tryCatch a h : World → _) w = _
  unfold exec
  simp only [ExceptT.tryCatch, ExceptT.mk, ExceptT.run, StateT.run, bind, StateT.bind]
  cases (a w : Except Fault α × World) with
  | mk r u => cases r <;> rfl

@[simp] theorem exec_get (w : World) : exec (get : Act World) w = (.ok w, w) := rfl

@[simp] theorem exec_set (u w : World) : exec (set u : Act PUnit) w = (.ok ⟨⟩, u) := rfl

@[simp] theorem exec_modify (f : World → World) (w : World) :
    exec (modify f : Act PUnit) w = (.ok ⟨⟩, f w) := rfl

@[simp] theorem exec_ask (f : Store → α) (w : World) : exec (ask f) w = (.ok (f w.store), w) := rfl

@[simp] theorem exec_view (v : Value) (w : World) : exec (view v) w = (.ok (w.store.view v), w) := rfl

@[simp] theorem exec_viewAll (vs : List Value) (w : World) :
    exec (viewAll vs) w = (.ok (w.store.viewAll vs), w) := rfl

@[simp] theorem exec_onStore (f : Store → α × Store) (w : World) :
    exec (onStore f) w = (.ok (f w.store).1, { w with store := (f w.store).2 }) := rfl

@[simp] theorem exec_alloc (o : Object) (w : World) :
    exec (alloc o) w = (.ok (w.store.alloc o).1, { w with store := (w.store.alloc o).2 }) := rfl

@[simp] theorem exec_put (l : Loc) (o : Object) (w : World) :
    exec (put l o) w = (.ok (), { w with store := w.store.put l o }) := rfl

@[simp] theorem exec_log (level : Level) (logger message : String) (w : World) :
    exec (log level logger message) w =
      (.ok (), { w with log := w.log.push ⟨level, logger, message⟩ }) := rfl

@[simp] theorem exec_misuse (m : Misuse) (w : World) :
    exec (misuse m : Act α) w = (.error (.misuse m), w) := rfl

theorem exec_decided (o : Option Bool) (w : World) :
    exec (decided o) w =
      (match o with | some b => .ok b | none => .error (.misuse .bottomless), w) := by
  cases o <;> rfl

theorem exec_written (o : Option String) (w : World) :
    exec (written o) w = (match o with | some t => .ok t | none => .error (.misuse .invalid), w) := by
  cases o <;> rfl

theorem exec_inRange (o : Option α) (w : World) :
    exec (inRange o) w = (match o with | some a => .ok a | none => .error (.misuse .overflow), w) := by
  cases o <;> rfl

theorem exec_isIn (v : Value) (xs : List Value) (w : World) :
    exec (isIn v xs) w =
      (match w.store.isIn? v xs with | some b => .ok b | none => .error (.misuse .bottomless), w) := by
  simp only [isIn, exec_bind, exec_ask, exec_decided]

theorem exec_mapFault (f : Fault → Fault) (a : Act α) (w : World) :
    exec (mapFault f a) w =
      match exec a w with
      | (.ok x, u) => (.ok x, u)
      | (.error e, u) => (.error (f e), u) := by
  rw [mapFault, exec_tryCatch]
  rfl

theorem exec_attempt (a : Act α) (w : World) :
    exec (attempt a) w = (.ok (exec a w).1, (exec a w).2) := by
  rw [attempt, exec_tryCatch, exec_bind]
  rcases exec a w with ⟨_ | _, _⟩ <;> rfl

/-- An action that is put together answers only if its first part does. -/
theorem exec_bind_ok {a : Act α} {f : α → Act β} {w u : World} {y : β}
    (h : exec (a >>= f) w = (.ok y, u)) :
    ∃ x v, exec a w = (.ok x, v) ∧ exec (f x) v = (.ok y, u) := by
  rw [exec_bind] at h
  rcases ha : exec a w with ⟨_ | x, v⟩
  · simp [ha] at h
  · exact ⟨x, v, rfl, by simpa [ha] using h⟩

theorem exec_decided_ok {o : Option Bool} {w u : World} {b : Bool} (h : exec (decided o) w = (.ok b, u)) :
    o = some b := by
  cases o with
  | none => cases h
  | some c =>
    cases h
    rfl

/-- What two values are compared to be, if the comparison ends. -/
theorem exec_equal_ok {v x : Value} {w u : World} {b : Bool} (h : exec (equal v x) w = (.ok b, u)) :
    w.store.equal? v x = some b := by
  obtain ⟨o, w', ho, hdecided⟩ := exec_bind_ok h
  cases ho
  exact exec_decided_ok hdecided

theorem exec_isIn_ok {v : Value} {xs : List Value} {w u : World} {b : Bool} (h : exec (isIn v xs) w = (.ok b, u)) :
    w.store.isIn? v xs = some b := by
  obtain ⟨o, w', ho, hdecided⟩ := exec_bind_ok h
  cases ho
  exact exec_decided_ok hdecided

theorem exec_mapFault_ok {f : Fault → Fault} {a : Act α} {w u : World} {x : α}
    (h : exec (mapFault f a) w = (.ok x, u)) : exec a w = (.ok x, u) := by
  rw [exec_mapFault] at h
  split at h
  · next ha =>
    cases h
    exact ha
  · cases h

end Conform.Act
