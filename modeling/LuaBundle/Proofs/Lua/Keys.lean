import LuaBundle.Proofs.Lua.Misreading
import LuaBundle.Proofs.Lua.Renaming

/-!
# Targets and keys

The walk leaves unbound what is no variable, and besides only the targets that it takes for keys.
-/
namespace LuaBundle.Lua

theorem Env.use_ne_other (Γ : Env) (n : Name) : Γ.use n ≠ .other := by
  rw [use]
  split <;> exact Role.noConfusion

/-- A variable that is seen as none. -/
def isHidden (p : Role × Role) : Bool := p.1 == .other && p.2 != .other

/-- What is no variable is seen as none, and so are `lost` variables besides. -/
structure Kept (lost : Nat) (seen roles : List Role) : Prop where
  others : List.Forall₂ (fun s r => r = Role.other → s = Role.other) seen roles
  hidden : (seen.zip roles).countP isHidden = lost

namespace Kept

variable {lost lost' : Nat} {seen seen' roles roles' : List Role}

theorem same (rs : List Role) : Kept 0 rs rs where
  others := List.forall₂_same.mpr fun _ _ => id
  hidden := by
    rw [List.countP_eq_zero]
    intro p hp
    obtain ⟨r, hr⟩ := List.mem_iff_getElem?.mp hp
    obtain ⟨h₁, h₂⟩ := List.getElem?_zip_eq_some.mp hr
    rw [h₁] at h₂
    simp [isHidden, Option.some.inj h₂]

theorem append (h : Kept lost seen roles) (h' : Kept lost' seen' roles') :
    Kept (lost + lost') (seen ++ seen') (roles ++ roles') where
  others := List.rel_append h.others h'.others
  hidden := by
    rw [List.zip_append h.others.length_eq, List.countP_append, h.hidden, h'.hidden]

theorem prepend (rs : List Role) (h : Kept lost seen roles) :
    Kept lost (rs ++ seen) (rs ++ roles) := by
  have := (same rs).append h
  rwa [Nat.zero_add] at this

theorem cons (r : Role) (h : Kept lost seen roles) : Kept lost (r :: seen) (r :: roles) :=
  h.prepend [r]

theorem snoc (h : Kept lost seen roles) (rs : List Role) : Kept lost (seen ++ rs) (roles ++ rs) :=
  h.append (same rs)

theorem use (Γ Δ : Env) (n : Name) : Kept 0 [Γ.use n] [Δ.use n] := by
  refine ⟨.cons (fun h => absurd h (Δ.use_ne_other n)) .nil, ?_⟩
  simp [isHidden, Γ.use_ne_other]

theorem key (Γ : Env) (n : Name) : Kept 1 [.other] [Γ.use n] := by
  refine ⟨.cons (fun _ => rfl) .nil, ?_⟩
  simp [isHidden, Γ.use_ne_other]

/-- Nothing is lost if no variable is seen as none. -/
theorem eq_zero_iff (h : Kept lost seen roles) : lost = 0 ↔
    ∀ i : Nat, seen[i]? = some .other ↔ roles[i]? = some .other := by
  rw [← h.hidden, List.countP_eq_zero]
  constructor
  · intro hnone i
    constructor
    · intro hs
      obtain ⟨r, hr, -⟩ := getElem?_of_forall₂ h.others hs
      have hzip : (seen.zip roles)[i]? = some (.other, r) := List.getElem?_zip_eq_some.mpr ⟨hs, hr⟩
      have hr' : r = .other := by simpa [isHidden] using hnone _ (List.mem_of_getElem? hzip)
      rw [hr, hr']
    · intro hr
      obtain ⟨s, hs, hother⟩ := getElem?_of_forall₂ h.others.flip hr
      rw [hs, hother rfl]
  · intro hall p hp hhidden
    obtain ⟨i, hi⟩ := List.mem_iff_getElem?.mp hp
    obtain ⟨hs, hr⟩ := List.getElem?_zip_eq_some.mp hi
    simp only [isHidden, Bool.and_eq_true, beq_iff_eq, bne_iff_ne] at hhidden
    have hr' := (hall i).mp (hhidden.1 ▸ hs)
    rw [hr] at hr'
    exact hhidden.2 (Option.some.inj hr')

end Kept

namespace View

variable (x : View)

@[simp] theorem braced_entered : x.entered.braced = x.braced := rfl

@[simp] theorem braced_plainDo : x.plainDo.braced = x.braced := by
  unfold plainDo
  split <;> rfl

end View

/-- What the walk hides of a tree is what is lost. -/
def Tree.Keeps {kind : Kind} (t : Tree kind) : Prop :=
  ∀ x Γ k, Kept (t.lost x.braced) (t.seen x k) (t.roles Γ k)

namespace Tree.Keeps

variable {kind kind' : Kind} {t : Tree kind}

/-- Behind another part of the same expression. -/
theorem past (h : t.Keeps) (x : View) (u : Tree kind') (Γ : Env) (k : Nat) :
    Kept (t.lost x.braced) (t.seen (x.past u) k) (t.roles Γ k) := by
  rw [← x.braced_past u]
  exact h (x.past u) Γ k

/-- In the body of a loop. -/
theorem entered (h : t.Keeps) (x : View) (vs : List Variable) (u : Tree kind') (Γ : Env) (k : Nat) :
    Kept (t.lost x.braced) (t.seen ((x.header vs).past u).entered k) (t.roles Γ k) := by
  have hkept := h ((x.header vs).past u).entered Γ k
  rw [View.braced_entered, View.braced_past] at hkept
  exact hkept

end Tree.Keeps

theorem Tree.keeps {kind : Kind} (t : Tree kind) : t.Keeps := by
  induction t with
  | literal t | noArgs | stringArg text | noField | semicolon | breakLoop | gotoLabel n | label n
  | locals l ls | endIf | nothing | ret closed => exact fun x Γ k => .same _
  | plain p ih | read p ih | result p ih | one p ih | target p ih | item p ih | lastField p ih
  | callOnly p ih => exact fun x Γ k => ih x Γ k
  | table fs ih | tableArg fs ih => exact fun x Γ k => ((ih (x.inside true) Γ k).cons _).snoc _
  | paren e ih | someArgs e ih => exact fun x Γ k => ((ih (x.inside false) Γ k).cons _).snoc _
  | binary l op r ih ih' | more l r ih ih' | span l r ih ih' | fieldThen l sep r ih ih'
  | assign l r ih ih' =>
    exact fun x Γ k => (ih x Γ k).append ((ih'.past x l Γ _).cons _)
  | unary op e ih => exact fun x Γ k => (ih x Γ k).cons _
  | function ps b ih =>
    exact fun x Γ k => ((ih (x.opened _) (Γ.declare _) (k + ps.names.length)).prepend _).snoc _
  | name n => exact fun x Γ k => .use _ _ n
  | index p e ih ih' =>
    exact fun x Γ k => ((ih x Γ k).append ((ih' ((x.past p).inside false) Γ _).cons _)).snoc _
  | member p n ih => exact fun x Γ k => (ih x Γ k).snoc _
  | apply p a ih ih' => exact fun x Γ k => (ih x Γ k).append (ih'.past x p Γ _)
  | invoke p n a ih ih' =>
    exact fun x Γ k => (ih x Γ k).append (((ih'.past x p Γ _).cons _).cons _)
  | targets v vs ih ih' =>
    intro x Γ k
    refine (ih x Γ k).append (Kept.cons _ ?_)
    split
    · rename_i hkey
      cases vs with
      | target v =>
        cases v with
        | name n => exact .key Γ n
        | index p e | member p n => cases (Bool.and_eq_true_iff.mp hkey).2
      | targets v vs => cases (Bool.and_eq_true_iff.mp hkey).2
    · exact ih'.past x v Γ _
  | stride first limit step ih ih' ih'' =>
    intro x Γ k
    have hstep := ih''.past (x.past first) limit Γ (k + first.decls + limit.decls)
    rw [View.braced_past] at hstep
    exact ((ih x Γ k).append ((ih'.past x first Γ _).cons _)).append (hstep.cons _)
  | named n e ih => exact fun x Γ k => ((ih x Γ k).cons _).cons _
  | keyed key e ih ih' =>
    intro x Γ k
    exact ((ih (x.inside false) Γ k).cons _).append (((ih'.past x key Γ _).cons _).cons _)
  | localsInit l ls es ih =>
    exact fun x Γ k => (((ih (x.awaiting _) Γ _).cons _).prepend (localRoles k l ls)).cons _
  | doEnd b ih =>
    intro x Γ k
    have hb := ih x.plainDo Γ k
    rw [View.braced_plainDo] at hb
    exact (hb.cons _).snoc _
  | elseEnd b ih => exact fun x Γ k => ((ih (x.opened []) Γ k).cons _).snoc _
  | whileDo e b ih ih' =>
    intro x Γ k
    exact (((ih (x.header []) Γ k).cons _).append ((ih'.entered x [] e Γ _).cons _)).snoc _
  | forRange n r b ih ih' =>
    intro x Γ k
    have hr := (ih (x.header (declared k [n])) Γ (k + 1)).cons .other
    have hb := (ih'.entered x (declared k [n]) r (Γ.declare (declared k [n])) (k + 1 + r.decls)).cons
      .other
    exact (((hr.prepend (declaring (declared k [n]))).cons .other).append hb).snoc _
  | forIn n ns es b ih ih' =>
    intro x Γ k
    have hes := (ih (x.header (declared k (n :: ns))) Γ (k + (1 + ns.length))).cons .other
    have hb := (ih'.entered x (declared k (n :: ns)) es (Γ.declare (declared k (n :: ns)))
      (k + (1 + ns.length) + es.decls)).cons .other
    exact (((hes.prepend (declaring (declared k (n :: ns)))).cons .other).append hb).snoc _
  | repeatUntil b e ih ih' =>
    intro x Γ k
    exact ((ih (x.opened []) Γ k).cons _).append ((ih' (x.untilFrom _) _ _).cons _)
  | ifThen e b f ih ih' ih'' | elseIf e b f ih ih' ih'' =>
    intro x Γ k
    have hb := ih' ((x.past e).opened []) Γ (k + e.decls)
    have hf := ih'' (x.skip (e.strays true + b.strays true)) Γ (k + e.decls + b.decls)
    have hb : Kept (b.lost x.braced) _ _ := x.braced_past e ▸ hb
    exact (((ih x Γ k).cons _).append (hb.cons _)).append hf
  | localFunction n ps b ih =>
    intro x Γ k
    have hb := ih ((x.opened (declared k [n])).opened (declared (k + 1) ps.names))
      ((Γ.declare (declared k [n])).declare (declared (k + 1) ps.names)) (k + 1 + ps.names.length)
    exact ((((hb.prepend (ps.roles (k + 1))).prepend (declaring (declared k [n]))).cons _).cons _).snoc _
  | functionNamed f ps b ih =>
    intro x Γ k
    have hname : Kept 0 (f.roles x.env) (f.roles Γ) := ((Kept.use _ _ f.base).snoc _).snoc _
    have hb := ih ((x.opened (f.receiver k)).opened
      (declared (k + f.method.toList.length) ps.names))
      ((Γ.declare (f.receiver k)).declare (declared (k + f.method.toList.length) ps.names))
      (k + f.method.toList.length + ps.names.length)
    have hall := ((hname.cons .other).snoc (ps.roles (k + f.method.toList.length))).append hb
    rw [Nat.zero_add] at hall
    exact hall.snoc _
  | retValues es closed ih => exact fun x Γ k => ((ih x.settled Γ k).cons _).snoc _
  | cons s b ih ih' =>
    intro x Γ k
    have hs := ih (x.reach s) Γ k
    have hb := ih' (s.left (x.reach s) k) (s.extend Γ k) (k + s.decls)
    rw [(s.leaves (x.reach s) k).2.1, View.braced_reach] at hb
    rw [View.braced_reach] at hs
    exact hs.append hb

end LuaBundle.Lua
