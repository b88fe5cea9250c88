import Mathlib.Data.List.Basic

/-!
# Computations that leave a trace

A computation emits events and ends with a result, or stops early. `r.All P` says that every event of
`r` meets `P`, and `Returns P r x` that it ends with `x` besides.
-/

namespace Xv6

variable {ε π α β : Type}

structure Traced (ε π α : Type) where
  events : List ε
  out : Except π α

namespace Traced

instance : Monad (Traced ε π) where
  pure x := ⟨[], .ok x⟩
  bind r f :=
    match r.out with
    | .ok x => ⟨r.events ++ (f x).events, (f x).out⟩
    | .error m => ⟨r.events, .error m⟩

def emit (es : List ε) : Traced ε π Unit := ⟨es, .ok ()⟩

def stop (m : π) : Traced ε π α := ⟨[], .error m⟩

def val (r : Traced ε π (Option α)) : Option α :=
  match r.out with
  | .ok x => x
  | .error _ => none

def All (P : ε → Prop) (r : Traced ε π α) : Prop := ∀ e ∈ r.events, P e

structure Returns (P : ε → Prop) (r : Traced ε π α) (x : α) : Prop where
  out : r.out = .ok x
  all : r.All P

variable {P : ε → Prop} {r : Traced ε π α} {f : α → Traced ε π β} {x : α} {y : β}

theorem all_pure : (pure x : Traced ε π α).All P := nofun

theorem all_stop {m : π} : (stop m : Traced ε π α).All P := nofun

theorem all_emit_bind {es : List ε} {f : Unit → Traced ε π β} :
    (emit es >>= f).All P ↔ (∀ e ∈ es, P e) ∧ (f ()).All P :=
  List.forall_mem_append

theorem all_emit {es : List ε} : (do emit es; pure x : Traced ε π α).All P ↔ ∀ e ∈ es, P e :=
  all_emit_bind.trans (and_iff_left all_pure)

theorem all_bind_pure : (r >>= fun _ => pure y : Traced ε π β).All P ↔ r.All P := by
  obtain ⟨es, out⟩ := r
  cases out with
  | ok x => exact List.forall_mem_append.trans (and_iff_left nofun)
  | error m => rfl

theorem out_bind_pure {y' : β} (hout : (r >>= fun _ => pure y : Traced ε π β).out = .ok y') : y' = y := by
  obtain ⟨es, out⟩ := r
  cases out <;> cases hout
  rfl

namespace Returns

theorem pure (x : α) : Returns P (Pure.pure x : Traced ε π α) x := ⟨rfl, all_pure⟩

section

variable (h : Returns P r x)
include h

theorem bind_eq : (r >>= f) = ⟨r.events ++ (f x).events, (f x).out⟩ := by
  change (match r.out with | .ok x => _ | .error m => _) = _
  rw [h.out]

theorem out_bind : (r >>= f).out = (f x).out := by rw [h.bind_eq]

theorem all_bind : (r >>= f).All P ↔ (f x).All P := by
  rw [h.bind_eq]
  exact List.forall_mem_append.trans (and_iff_right h.all)

theorem bind (hf : Returns P (f x) y) : Returns P (r >>= f) y :=
  ⟨h.out_bind.trans hf.out, h.all_bind.mpr hf.all⟩

variable {f : α → Traced ε π (Option β)}

theorem val_bind : (r >>= f).val = (f x).val := by rw [val, h.out_bind, val]

theorem bind_val (hf : Returns P (f x) (f x).val) : Returns P (r >>= f) (r >>= f).val :=
  h.val_bind ▸ h.bind hf

end

end Returns

end Traced

end Xv6
