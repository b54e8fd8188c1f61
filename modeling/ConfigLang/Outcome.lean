import ConfigLang.Fault.Basic

set_option autoImplicit false

/-! # Outcomes

What a change made step by step leaves behind: all of it, or the part before a fault. -/

namespace ConfigLang

/-- The state after a change, together with the fault that stopped it early, if one did. -/
inductive Outcome (σ : Type) where
  | done (state : σ)
  | stopped (state : σ) (fault : Fault)

namespace Outcome

variable {σ : Type}

/-- The state that is left, however the change ended. -/
def state : Outcome σ → σ
  | .done s => s
  | .stopped s _ => s

/-- The state after the whole change, or the fault. -/
def result : Outcome σ → Except Fault σ
  | .done s => .ok s
  | .stopped _ f => .error f

/-- Go on from the state after the whole change. -/
def andThen {τ : Type} (o : Outcome σ) (keep : σ → τ) (next : σ → Outcome τ) : Outcome τ :=
  match o with
  | .done s => next s
  | .stopped s f => .stopped (keep s) f

end Outcome

end ConfigLang
