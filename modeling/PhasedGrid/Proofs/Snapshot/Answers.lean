import PhasedGrid.Proofs.Snapshot.Calls

/-!
Answers against requests. A collector remembers the last module that asked, also once it has
answered. A peer list that makes it the leader while it awaits nothing then starts a snapshot whose
result goes to that module once more; apart from these no module gets more answers than it asked for.
-/

namespace PhasedGrid.Snapshot

set_option autoImplicit false

/-- Whether a node hands a collected state to one of its own modules. -/
def Effect.answers (node module : String) : Effect → Bool
  | .send receiver m => receiver = node && (Collected.ofMessage? module m).isSome
  | .arm _ => false

theorem Effect.Plain.not_answers {e : Effect} (h : e.Plain) (node module : String) :
    e.answers node module = false := by
  cases e with
  | send receiver m =>
    rw [answers, h module]
    exact Bool.and_false _
  | arm delay => rfl

namespace Agent

/-- What a collector does to the outside while it serves calls. -/
def effects (a : Agent) : List Call → List Effect
  | [] => []
  | c :: rest => (a.serve c).2 ++ (a.serve c).1.effects rest

/-- Whether the snapshot in progress is one that `module` gets the result of. -/
def owes (a : Agent) (module : String) : Bool := a.awaiting && a.requester = some module

/-- Whether a call starts a snapshot for a module although none is in progress for it. -/
def resumes (a : Agent) (module : String) (c : Call) : Bool :=
  c.leads a.uuid && !a.awaiting && a.requester = some module

def resumptions (a : Agent) (module : String) : List Call → Nat
  | [] => 0
  | c :: rest => (a.resumes module c).toNat + (a.serve c).1.resumptions module rest

theorem plain_answers {es : List Effect} (h : ∀ e ∈ es, e.Plain) (node module : String) :
    es.countP (Effect.answers node module) = 0 := by
  rw [List.countP_eq_zero]
  intro e he
  rw [(h e he).not_answers]
  exact Bool.false_ne_true

theorem initiate_answers (a : Agent) (x : Float) (node module : String) :
    (a.initiate x).2.countP (Effect.answers node module) = 0 := by
  unfold initiate
  rw [List.countP_append, plain_answers (a.toOthers_plain a.nextVersion)]
  rfl

theorem owes_initiate (a : Agent) (x : Float) (module : String) :
    (a.initiate x).1.owes module = decide (a.requester = some module) := by
  have haw : (a.initiate x).1.awaiting := awaiting_of_nextVersion (a := a) rfl rfl
  unfold owes
  rw [haw, Bool.true_and]
  rfl

theorem owes_finishCurrent (a : Agent) (module : String) :
    a.finishCurrent.owes module = false := rfl

variable {a b : Agent} {c : Call}

theorem Tends.owes (h : Tends a b) (module : String) : b.owes module → a.owes module := by
  unfold Agent.owes
  rw [h.requester]
  intro hb
  rw [Bool.and_eq_true] at hb ⊢
  exact ⟨h.awaiting hb.1, hb.2⟩

/-- An answer uses up what was owed; what is owed anew was asked for or resumed. -/
theorem Serving.balance {es : List Effect} (h : Serving a c b es) (module : String) :
    es.countP (Effect.answers a.uuid module) + (b.owes module).toNat ≤
      (a.owes module).toNat + (if c.module? = some module then 1 else 0) +
        (a.resumes module c).toNat := by
  cases h with
  | requested x hm hb hr =>
    rw [initiate_answers, owes_initiate, hr, hm, Nat.zero_add]
    split
    · exact Nat.le_trans (Bool.toNat_le _) (by omega)
    · simp_all
  | led x hl hb hr =>
    rw [initiate_answers, owes_initiate, hr, resumes, hl]
    by_cases hreq : a.requester = some module
    · cases haw : a.awaiting <;> simp [owes, hreq, haw]
    · simp [hreq]
  | extended left hc haw =>
    have hsame : Agent.owes { a with extensionsLeft := left } module = a.owes module := rfl
    rw [hsame, List.countP_singleton]
    exact Nat.le_trans (Nat.le_of_eq (Nat.zero_add _)) (by omega)
  | delivered asker hc haw hr =>
    rw [owes_finishCurrent, List.countP_singleton]
    split
    · rename_i ha
      have hread := (Bool.and_eq_true _ _ ▸ ha).2
      have hm := Collected.module_of_toMessage hread
      have howes : a.owes module = true := by
        rw [owes, haw, hr, ← hm, answer, hr]
        simp
      rw [howes, Bool.toNat_true, Bool.toNat_false]
      omega
    · exact Nat.zero_le _
  | tended ht hes =>
    have hle : (b.owes module).toNat ≤ (a.owes module).toNat := by
      cases hb : b.owes module with
      | false => exact Nat.zero_le _
      | true => exact Nat.le_of_eq (congrArg Bool.toNat (ht.owes module hb).symm)
    rw [plain_answers hes]
    omega

theorem effects_balance (a : Agent) (module : String) (calls : List Call) :
    (a.effects calls).countP (Effect.answers a.uuid module) + ((a.after calls).owes module).toNat ≤
      (a.owes module).toNat + calls.countP (fun c => c.module? = some module) +
        a.resumptions module calls := by
  induction calls generalizing a with
  | nil => exact Nat.le_of_eq (by simp [effects, after, resumptions])
  | cons c rest ih =>
    have hs := a.serve_serving c
    have hfirst := hs.balance module
    have hrest := ih (a.serve c).1
    rw [hs.uuid] at hrest
    change ((a.serve c).2 ++ (a.serve c).1.effects rest).countP _ +
      (((a.serve c).1.after rest).owes module).toNat ≤ _
    rw [List.countP_append, List.countP_cons, resumptions]
    simp only [decide_eq_true_eq]
    omega

/-- No module gets more answers than it asked for, but for one more each time that a peer list makes
this node the leader when that module was the last to ask and awaits nothing. -/
theorem answers_le_requests (uuid : String) (policy : Policy) (peers : List String) (module : String)
    (calls : List Call) :
    ((new uuid policy peers).effects calls).countP (Effect.answers uuid module) ≤
      calls.countP (fun c => c.module? = some module) +
        (new uuid policy peers).resumptions module calls := by
  have h := (new uuid policy peers).effects_balance module calls
  have hnone : (new uuid policy peers).owes module = false := rfl
  rw [hnone, Bool.toNat_false, Nat.zero_add] at h
  exact Nat.le_trans (Nat.le_add_right _ _) h

/-- A node on its own is asked once, answers, and then becomes the leader of its group. -/
def elected : List Call :=
  [.request "gm" 1, .timer .expired, .message (Wire.peerList "a" ["a"]) 2, .timer .expired]

set_option maxRecDepth 4000 in
/-- The module that asked once gets two answers. -/
theorem answered_twice :
    ¬ ∀ (uuid : String) (policy : Policy) (peers : List String) (module : String)
        (calls : List Call),
      ((new uuid policy peers).effects calls).countP (Effect.answers uuid module) ≤
        calls.countP fun c => c.module? = some module := by
  intro h
  have htwo := h "a" {} ["a"] "gm" elected
  exact absurd htwo (by decide +kernel)

end Agent

end PhasedGrid.Snapshot
