import LinkAnalysis.Cancellation

/-!
# Strict programs

The programs of the library are total: a look beyond the end of an array yields
a default, and a loop that outlasts its bound just ends.  A strict program does
the same work with operations that get stuck instead.  Where a strict program
comes to the result of a total one, the total one has never made use of a
default.
-/

namespace LinkAnalysis

/-- Why a strict program comes to no result: it is refused with a fault, or it
gets stuck. -/
inductive Halt where
  | fault (f : Fault)
  | stuck
  deriving DecidableEq, Repr

abbrev Strict (β : Type) : Type := Except Halt β

namespace Strict

variable {β γ σ : Type}

/-- A program that can only be refused, as a strict one. -/
def lift (x : Except Fault β) : Strict β := x.mapError .fault

def poll (signal : Signal) : Strict Unit := lift signal.check

def require (p : Prop) [Decidable p] : Strict Unit :=
  if p then .ok () else .error .stuck

def fetch (a : Array β) (i : Nat) : Strict β :=
  match a[i]? with
  | some x => .ok x
  | none => .error .stuck

def adjust (a : Array β) (i : Nat) (f : β → β) : Strict (Array β) := do
  require (i < a.size)
  return a.modify i f

def store (a : Array β) (i : Nat) (x : β) : Strict (Array β) := do
  require (i < a.size)
  return a.setIfInBounds i x

/-- A list can be sorted if the comparison is total and transitive on it. -/
def sort (le : β → β → Bool) (l : List β) : Strict (List β) := do
  require ((∀ x ∈ l, ∀ y ∈ l, (le x y || le y x) = true) ∧
    ∀ x ∈ l, ∀ y ∈ l, ∀ z ∈ l, le x y = true → le y z = true → le x z = true)
  return l.mergeSort le

/-! ## Single operations -/

@[simp] theorem ok_bind
    {ε : Type} (x : β) (f : β → Except ε γ) :
    (Except.ok x >>= f) = f x :=
  rfl

@[simp] theorem pure_eq_ok (x : β) : (pure x : Strict β) = .ok x := rfl

theorem lift_bind (x : Except Fault β) (f : β → Except Fault γ) :
    lift (x >>= f) = lift x >>= fun y => lift (f y) := by
  cases x with
  | ok x => rfl
  | error fault => rfl

theorem lift_map (f : β → γ) (x : Except Fault β) :
    lift (x.map f) = (lift x).map f := by
  cases x with
  | ok x => rfl
  | error fault => rfl

theorem lift_injective :
    Function.Injective (lift : Except Fault β → Strict β) := by
  intro x y hlift
  cases x with
  | ok b =>
      cases y with
      | ok c => exact congrArg Except.ok (Except.ok.inj hlift)
      | error fault => exact nomatch hlift
  | error fault =>
      cases y with
      | ok c => exact nomatch hlift
      | error fault' =>
          exact congrArg Except.error (Halt.fault.inj (Except.error.inj hlift))

theorem exists_of_bind_eq_ok
    {x : Except Fault β} {f : β → Except Fault γ} {c : γ}
    (hbind : x >>= f = .ok c) :
    ∃ b, x = .ok b ∧ f b = .ok c := by
  cases x with
  | ok b => exact ⟨b, rfl, hbind⟩
  | error fault => exact nomatch hbind

/-- A strict program that goes on from a result goes on as the total one
does. -/
theorem bind_eq_lift
    {x : Strict β} {y : Except Fault β} {f : β → Strict γ}
    {g : β → Except Fault γ}
    (hx : x = lift y)
    (hf : ∀ b, y = .ok b → f b = lift (g b)) :
    x >>= f = lift (y >>= g) := by
  rw [hx]
  cases y with
  | ok b => exact hf b rfl
  | error fault => rfl

theorem require_of {p : Prop} [Decidable p] (hholds : p) : require p = .ok () :=
  if_pos hholds

theorem poll_bind_ok
    (signal : Signal) {x : Strict β} {y : β}
    (hok : x = .ok y) :
    (do poll signal; x) = lift (do signal.check; return y) := by
  rw [hok]
  cases signal <;> rfl

theorem fetch_of_lt
    {a : Array β} {i : Nat}
    (hlt : i < a.size)
    (default : β) :
    fetch a i = .ok (a.getD i default) := by
  rw [fetch, Array.getElem?_eq_getElem hlt, Array.getD_eq_getD_getElem?,
    Array.getElem?_eq_getElem hlt]
  rfl

theorem fetch_of_getElem?
    {a : Array β} {i : Nat} {x : β}
    (hget : a[i]? = some x) :
    fetch a i = .ok x := by
  rw [fetch, hget]

theorem adjust_of_lt
    {a : Array β} {i : Nat}
    (hlt : i < a.size)
    (f : β → β) :
    adjust a i f = .ok (a.modify i f) := by
  rw [adjust, require_of hlt]
  rfl

theorem store_of_lt
    {a : Array β} {i : Nat}
    (hlt : i < a.size)
    (x : β) :
    store a i x = .ok (a.setIfInBounds i x) := by
  rw [store, require_of hlt]
  rfl

theorem sort_of_total
    {le : β → β → Bool}
    (htotal : ∀ x y, (le x y || le y x) = true)
    (htrans : ∀ x y z, le x y = true → le y z = true → le x z = true)
    (l : List β) :
    sort le l = .ok (l.mergeSort le) := by
  rw [sort,
    require_of ⟨fun x _ y _ => htotal x y, fun x _ y _ z _ => htrans x y z⟩]
  rfl

/-! ## Loops -/

/-- A loop whose steps never get stuck where its invariant holds. -/
theorem foldlM_eq_lift
    {P : σ → Prop} {f : σ → β → Strict σ} {g : σ → β → Except Fault σ}
    {l : List β}
    (hstep :
      ∀ s, P s → ∀ x ∈ l, f s x = lift (g s x) ∧ ∀ s', g s x = .ok s' → P s')
    (s : σ)
    (hs : P s) :
    l.foldlM f s = lift (l.foldlM g s) ∧
      ∀ s', l.foldlM g s = .ok s' → P s' := by
  induction l generalizing s with
  | nil => exact ⟨rfl, fun s' hs' => Except.ok.inj hs' ▸ hs⟩
  | cons x l ih =>
      obtain ⟨heq, hnext⟩ := hstep s hs x List.mem_cons_self
      rw [List.foldlM_cons, List.foldlM_cons, lift_bind, heq]
      cases hg : g s x with
      | error fault => exact ⟨rfl, fun s' hs' => nomatch hs'⟩
      | ok s' =>
          exact ih (fun t ht y hy => hstep t ht y (List.mem_cons_of_mem _ hy))
            s' (hnext s' hg)

theorem foldlM_eq_ok
    {P : σ → Prop} {f : σ → β → Strict σ} {g : σ → β → σ} {l : List β}
    (hstep : ∀ s, P s → ∀ x ∈ l, f s x = .ok (g s x) ∧ P (g s x))
    (s : σ)
    (hs : P s) :
    l.foldlM f s = .ok (l.foldl g s) ∧ P (l.foldl g s) := by
  induction l generalizing s with
  | nil => exact ⟨rfl, hs⟩
  | cons x l ih =>
      obtain ⟨heq, hnext⟩ := hstep s hs x List.mem_cons_self
      rw [List.foldlM_cons, heq, List.foldl_cons]
      exact ih
        (fun t ht y hy => hstep t ht y (List.mem_cons_of_mem _ hy)) _ hnext

/-! Loops whose steps never get stuck at all. -/

theorem foldlM_eq_lift_of_forall
    {f : σ → β → Strict σ} {g : σ → β → Except Fault σ} {l : List β}
    (hlift : ∀ s, ∀ x ∈ l, f s x = lift (g s x))
    (s : σ) :
    l.foldlM f s = lift (l.foldlM g s) :=
  (foldlM_eq_lift (P := fun _ => True) (fun s _ x hx =>
      ⟨hlift s x hx, fun _ _ => trivial⟩) s trivial).1

theorem foldlM_eq_ok_of_forall
    {f : σ → β → Strict σ} {g : σ → β → σ} {l : List β}
    (hok : ∀ s, ∀ x ∈ l, f s x = .ok (g s x))
    (s : σ) :
    l.foldlM f s = .ok (l.foldl g s) :=
  (foldlM_eq_ok (P := fun _ => True) (fun s _ x hx =>
      ⟨hok s x hx, trivial⟩) s trivial).1

/-- A loop whose steps never get stuck, and whose states stay in a relation with
those of another loop. -/
theorem foldlM_rel
    {τ : Type} {R : σ → τ → Prop} {f : σ → β → Strict σ} {g : τ → β → τ}
    {l : List β}
    (hstep : ∀ s t, R s t → ∀ x ∈ l, ∃ s', f s x = .ok s' ∧ R s' (g t x))
    {s : σ} {t : τ}
    (hrel : R s t) :
    ∃ s', l.foldlM f s = .ok s' ∧ R s' (l.foldl g t) := by
  induction l generalizing s t with
  | nil => exact ⟨s, rfl, hrel⟩
  | cons x l ih =>
      rcases hstep s t hrel x List.mem_cons_self with ⟨s', heq, hrel'⟩
      rw [List.foldlM_cons, heq, List.foldl_cons]
      exact ih
        (fun s t hst y hy => hstep s t hst y (List.mem_cons_of_mem _ hy)) hrel'

theorem mapM_eq_lift
    {f : β → Strict γ} {g : β → Except Fault γ} {l : List β}
    (hlift : ∀ x ∈ l, f x = lift (g x)) :
    l.mapM f = lift (l.mapM g) := by
  induction l with
  | nil => rfl
  | cons x l ih =>
      rw [List.mapM_cons, List.mapM_cons, lift_bind, hlift x List.mem_cons_self,
        ih fun y hy => hlift y (List.mem_cons_of_mem _ hy)]
      cases g x with
      | error fault => rfl
      | ok y => cases l.mapM g <;> rfl

theorem length_of_mapM
    {g : β → Except Fault γ} {l : List β} {l' : List γ}
    (hok : l.mapM g = .ok l') :
    l'.length = l.length := by
  induction l generalizing l' with
  | nil =>
      have heq : [] = l' := Except.ok.inj hok
      rw [← heq]
      rfl
  | cons x l ih =>
      rw [List.mapM_cons] at hok
      rcases exists_of_bind_eq_ok hok with ⟨y, -, hrest⟩
      rcases exists_of_bind_eq_ok hrest with ⟨ys, hys, heq⟩
      rw [← Except.ok.inj heq, List.length_cons, List.length_cons, ih hys]

theorem mapM_eq_ok
    {f : β → Strict γ} {g : β → γ} {l : List β}
    (hok : ∀ x ∈ l, f x = .ok (g x)) :
    l.mapM f = .ok (l.map g) := by
  induction l with
  | nil => rfl
  | cons x l ih =>
      rw [List.mapM_cons, hok x List.mem_cons_self,
        ih fun y hy => hok y (List.mem_cons_of_mem _ hy)]
      rfl

theorem mapM_array_eq_ok
    {f : β → Strict γ} {g : β → γ} {a : Array β}
    (hok : ∀ x ∈ a, f x = .ok (g x)) :
    a.mapM f = .ok (a.map g) := by
  rw [Array.mapM_eq_mapM_toList, mapM_eq_ok fun x hx =>
    hok x (Array.mem_toList_iff.mp hx), ← Array.toList_map]
  rfl

theorem filterM_eq_ok
    {p : β → Strict Bool} {q : β → Bool} {l : List β}
    (hok : ∀ x ∈ l, p x = .ok (q x)) :
    l.filterM p = .ok (l.filter q) := by
  have haux : ∀ (l acc : List β), (∀ x ∈ l, p x = .ok (q x)) →
      l.filterAuxM p acc = .ok ((l.filter q).reverse ++ acc) := by
    intro l
    induction l with
    | nil => exact fun acc _ => rfl
    | cons x l ih =>
        intro acc hl
        rw [List.filterAuxM, hl x List.mem_cons_self, ok_bind,
          ih _ fun y hy => hl y (List.mem_cons_of_mem _ hy)]
        cases hq : q x <;> simp [hq]
  rw [List.filterM, haux l [] hok, ok_bind, pure_eq_ok, List.append_nil,
    List.reverse_reverse]

end Strict

end LinkAnalysis
