import Proviso.Machine.Perform
import Proviso.Proofs.Encoding

/-!
# What an instruction can do

Facts about single instructions that every argument about programs rests on: renaming the branch
targets of an instruction renames where it leads and changes nothing else; it leads only to its
own targets, and only a closing instruction leaves a body; a name that the reader would refuse is
refused by the instruction itself, with the same fault and before it touches anything; and no
instruction fails for a reason that only malformed bytes have.
-/

namespace Proviso

/-! ### The faults and the values of an act -/

namespace Act

variable {ε σ τ α β : Type} {P : ε → Prop}

/-- The act fails in no other way than `P` says. -/
def FailsIn (P : ε → Prop) (x : Act ε σ α) : Prop :=
  ∀ s e s', x s = (.error e, s') → P e

namespace FailsIn

theorem pure (a : α) : FailsIn P (pure a : Act ε σ α) := by
  intro s e s' h
  cases h

theorem look (f : σ → α) : FailsIn P (look f : Act ε σ α) := by
  intro s e s' h
  cases h

theorem fail {e : ε} (he : P e) : FailsIn P (fail e : Act ε σ α) := by
  intro s e' s' h
  cases h
  exact he

theorem lift {r : Except ε α} (hr : ∀ e, r = .error e → P e) :
    FailsIn P (lift r : Act ε σ α) := by
  cases r with
  | ok a => exact pure a
  | error e => exact fail (hr e rfl)

theorem orFail {e : ε} (he : P e) (o : Option α) : FailsIn P (orFail e o : Act ε σ α) := by
  cases o with
  | none => exact fail he
  | some a => exact pure a

/-- Two acts one after the other fail as each can fail. -/
theorem bind {x : Act ε σ α} {f : α → Act ε σ β} (hx : FailsIn P x)
    (hf : ∀ a, FailsIn P (f a)) : FailsIn P (x >>= f) := by
  intro s e s' h
  rcases hrun : x s with ⟨e' | a, s₁⟩
  · rw [bind_of_error hrun] at h
    cases h
    exact hx s e s' hrun
  · rw [bind_of_ok hrun] at h
    exact hf a s₁ e s' h

/-- An act on a part fails as it does by itself. -/
theorem within {get : τ → σ} {set : σ → τ → τ} {x : Act ε σ α} (hx : FailsIn P x) :
    FailsIn P (x.within get set) := by
  intro t e t' h
  rcases hrun : x (get t) with ⟨r, s⟩
  rw [Act.within, hrun] at h
  cases h
  exact hx (get t) e s hrun

end FailsIn

/-- Every value that the act gives is as `Q` says. -/
def Gives (Q : α → Prop) (x : Act ε σ α) : Prop :=
  ∀ s a s', x s = (.ok a, s') → Q a

theorem Gives.pure {Q : α → Prop} {a : α} (ha : Q a) : Gives Q (pure a : Act ε σ α) := by
  intro s b s' h
  cases h
  exact ha

theorem Gives.orFail {Q : α → Prop} {o : Option α} (e : ε) (ho : ∀ a, o = some a → Q a) :
    Gives Q (orFail e o : Act ε σ α) := by
  intro s a s' h
  cases o with
  | none => cases h
  | some b => cases h; exact ho _ rfl

theorem Gives.trivially {Q : α → Prop} {x : Act ε σ α} (h : ∀ a, Q a) : Gives Q x :=
  fun _ a _ _ => h a

/-- What the first act gives can be used for the second. -/
theorem Gives.bind_of {P : α → Prop} {Q : β → Prop} {x : Act ε σ α} {f : α → Act ε σ β}
    (hx : Gives P x) (hf : ∀ a, P a → Gives Q (f a)) : Gives Q (x >>= f) := by
  intro s b s' h
  rcases hrun : x s with ⟨e | a, s₁⟩
  · rw [bind_of_error hrun] at h
    cases h
  · rw [bind_of_ok hrun] at h
    exact hf a (hx s a s₁ hrun) s₁ b s' h

theorem Gives.bind {Q : β → Prop} {x : Act ε σ α} {f : α → Act ε σ β}
    (hf : ∀ a, Gives Q (f a)) : Gives Q (x >>= f) :=
  bind_of (trivially fun _ => trivial) fun a (_ : True) => hf a

/-- Two continuations that agree on what an act gives can stand for each other. -/
theorem Gives.bind_congr {Q : α → Prop} {x : Act ε σ α} {f g : α → Act ε σ β} (hx : Gives Q x)
    (h : ∀ a, Q a → f a = g a) : x >>= f = x >>= g := by
  funext s
  rcases hrun : x s with ⟨e | a, s'⟩
  · rw [bind_of_error hrun, bind_of_error hrun]
  · rw [bind_of_ok hrun, bind_of_ok hrun, h a (hx s a s' hrun)]

end Act

/-! ### Faults of malformed programs -/

/-- The faults of bytes that are no program: an unknown opcode, an instruction that is cut off, a
jump out of the program, and a type that its opcode does not have. -/
def Fault.IsMalformed : Fault → Prop
  | .unknownOpcode .. | .endOfBytecode .. | .invalidJump .. | .invalidVariant .. => True
  | .stackUnderflow .. | .typeMismatch .. | .arrayTypeMismatch .. | .invalidOperand ..
  | .overflow .. | .underflow .. | .divisionByZero .. | .stackOverflow ..
  | .callDepthExceeded .. | .indexOutOfBounds .. | .undeclaredArray ..
  | .externalCallFailed .. => False

/-- An act that never blames malformed bytes. -/
abbrev Act.Regular {σ α : Type} (x : Act Fault σ α) : Prop :=
  x.FailsIn fun f => ¬ f.IsMalformed

namespace Stack

theorem regular_push (c : Cell) : (push c).Regular := by
  intro s f s' h
  rw [push] at h
  split at h
  · cases h; exact id
  · cases h

theorem regular_pop (op : String) : (pop op).Regular := by
  intro s f s' h
  rw [pop] at h
  split at h
  · cases h; exact id
  · cases h

theorem regular_popPair (op : String) : (popPair op).Regular := by
  intro s f s' h
  rw [popPair] at h
  split at h
  · cases h
  · cases h; exact id

theorem regular_popInteger (op : String) : (popInteger op).Regular :=
  (regular_pop op).bind fun c => by
    cases c with
    | integer v => exact .pure v
    | flag | account | word | text => exact .fail id

theorem regular_popFlag (op : String) : (popFlag op).Regular :=
  (regular_pop op).bind fun c => by
    cases c with
    | flag b => exact .pure b
    | integer | account | word | text => exact .fail id

theorem regular_popAccount (op : String) : (popAccount op).Regular :=
  (regular_pop op).bind fun c => by
    cases c with
    | account a => exact .pure a
    | integer | flag | word | text => exact .fail id

theorem regular_popWord (op : String) : (popWord op).Regular :=
  (regular_pop op).bind fun c => by
    cases c with
    | word w => exact .pure w
    | integer | flag | account | text => exact .fail id

end Stack

/-! ### Operators -/

theorem integerPair_regular {op : String} {lhs rhs : Cell} {f : Fault}
    (h : integerPair op lhs rhs = .error f) : ¬ f.IsMalformed := by
  unfold integerPair at h
  split at h <;> cases h <;> exact id

theorem Comparison.apply_regular {c : Comparison} {lhs rhs : Cell} {f : Fault}
    (h : c.apply lhs rhs = .error f) : ¬ f.IsMalformed := by
  cases c with
  | eq | ne =>
    simp only [apply, sameType] at h
    split at h <;> cases h
    exact id
  | lt | gt | le | ge =>
    simp only [apply] at h
    cases hp : integerPair _ lhs rhs with
    | ok p => rw [hp] at h; cases h
    | error e => rw [hp] at h; cases h; exact integerPair_regular hp

theorem Connective.apply_regular {c : Connective} {lhs rhs : Cell} {f : Fault}
    (h : c.apply lhs rhs = .error f) : ¬ f.IsMalformed := by
  unfold apply at h
  split at h <;> cases h <;> exact id

theorem Arithmetic.apply_regular {a : Arithmetic} {lhs rhs : Cell} {f : Fault}
    (h : a.apply lhs rhs = .error f) : ¬ f.IsMalformed := by
  unfold apply at h
  split at h
  · next hp => cases h; exact integerPair_regular hp
  · split at h
    · cases h
    · cases h; cases a <;> exact id

theorem negate_regular {c : Cell} {f : Fault} (h : negate c = .error f) : ¬ f.IsMalformed := by
  unfold negate at h
  split at h <;> cases h
  exact id

theorem typedCell_regular {op : Opcode} {k : ValueKind} {w : Word} {f : Fault}
    (h : typedCell op k w = .error f) : ¬ f.IsMalformed := by
  unfold typedCell at h
  split at h
  · cases h
  · cases h
  · cases h
  · cases h
  · split at h <;> cases h
    exact id
  · split at h <;> cases h
    exact id

/-- A sum fails as one of its terms, or by overflow. -/
theorem totalFrom_regular {overflow : Fault} (ho : ¬ overflow.IsMalformed)
    {term : Nat → Except Fault UInt256} (ht : ∀ i f, term i = .error f → ¬ f.IsMalformed)
    {count start : Nat} {total : UInt256} {f : Fault}
    (h : totalFrom overflow term count start total = .error f) : ¬ f.IsMalformed := by
  induction count generalizing start total with
  | zero => cases h
  | succ count ih =>
    rw [totalFrom] at h
    split at h
    · next hs => cases h; exact ht _ _ hs
    · split at h
      · cases h; exact ho
      · exact ih h

/-! ### Effects -/

namespace Effect

variable {σ α : Type}

theorem regular_onStack {x : Act Fault Stack α} (hx : x.Regular) :
    (onStack x : Effect σ α).Regular :=
  hx.within

theorem regular_push (c : Cell) : (push c : Effect σ Unit).Regular :=
  regular_onStack (Stack.regular_push c)

theorem regular_pushResult {r : Except Fault Cell} (hr : ∀ f, r = .error f → ¬ f.IsMalformed) :
    (pushResult r : Effect σ Unit).Regular :=
  (Act.FailsIn.lift hr).bind regular_push

theorem regular_pushTotal {r : Except Fault UInt256}
    (hr : ∀ f, r = .error f → ¬ f.IsMalformed) :
    (pushResult (r.map .integer) : Effect σ Unit).Regular :=
  regular_pushResult fun f h => by
    cases r with
    | ok v => cases h
    | error e => cases h; exact hr _ rfl

theorem regular_binary {op : String} {apply : Cell → Cell → Except Fault Cell}
    (ha : ∀ {lhs rhs f}, apply lhs rhs = .error f → ¬ f.IsMalformed) :
    (binary op apply : Effect σ Unit).Regular :=
  (regular_onStack (Stack.regular_popPair op)).bind fun _ => regular_pushResult fun _ => ha

/-- A refused request is no malformed instruction. -/
theorem regular_request (op : Opcode) (call : HostCall) :
    (request op call : Effect σ Unit).Regular := by
  refine Act.FailsIn.bind (fun w f w' h => ?_) fun granted => ?_
  · cases h
  · cases granted with
    | true => exact regular_push _
    | false => exact .fail id

theorem regular_popScalar (op : String) (s : Scalar) :
    (popScalar op s : Effect σ Word).Regular := by
  cases s with
  | integer => exact (regular_onStack (Stack.regular_popInteger op)).bind fun _ => .pure _
  | flag => exact (regular_onStack (Stack.regular_popFlag op)).bind fun _ => .pure _
  | account => exact (regular_onStack (Stack.regular_popAccount op)).bind fun _ => .pure _
  | word => exact regular_onStack (Stack.regular_popWord op)

theorem regular_name (op : Opcode) (w : Word) : (name op w : Effect σ String).Regular :=
  .orFail id _

theorem regular_expectKind (op : Opcode) (array : String) (h : Header) (asked : ValueKind) :
    (expectKind op array h asked : Effect σ Unit).Regular := by
  rw [expectKind]
  split
  · exact .pure ()
  · exact .fail id

variable [Store σ]

theorem regular_party (k : Slot) : (party k : Effect σ Address).Regular :=
  (Act.FailsIn.look _).bind fun _ => .pure _

theorem regular_storeLocal (k : Slot) (v : Word) : (storeLocal k v : Effect σ Unit).Regular := by
  intro w f w' h
  cases h

theorem regular_storeFields (fs : List Field) : (storeFields fs : Effect σ Unit).Regular := by
  induction fs with
  | nil => exact .pure ()
  | cons f fs ih =>
    exact (regular_storeLocal _ _).bind fun _ => (regular_storeLocal _ _).bind fun _ => ih

theorem regular_header (op : Opcode) (array : String) :
    (header op array : Effect σ Header).Regular :=
  (Act.FailsIn.look _).bind fun _ => .orFail id _

theorem regular_declare (op : Opcode) (k : ValueKind) (array : String) :
    (declare op k array : Effect σ Unit).Regular := by
  refine (Act.FailsIn.look _).bind fun w => ?_
  cases Header.decode? w with
  | some h => exact regular_expectKind op array h k
  | none => exact regular_storeLocal _ _

theorem regular_append (op : Opcode) (k : ValueKind) (v : Word) (array : String) :
    (append op k v array : Effect σ Unit).Regular :=
  (regular_header op array).bind fun h => (regular_expectKind op array h k).bind fun _ =>
    (regular_storeLocal _ _).bind fun _ => regular_storeLocal _ _

theorem regular_element (op : Opcode) (index : UInt256) (array : String) :
    (element op index array : Effect σ Unit).Regular := by
  refine (regular_header op array).bind fun h => ?_
  split
  · exact (Act.FailsIn.look _).bind fun w => regular_pushResult fun _ => typedCell_regular
  · exact .fail id

theorem regular_length (op : Opcode) (array : String) :
    (length op array : Effect σ Unit).Regular :=
  (regular_header op array).bind fun _ => regular_push _

theorem regular_sum (op : Opcode) (array : String) : (sum op array : Effect σ Unit).Regular :=
  (regular_header op array).bind fun h => (regular_expectKind op array h _).bind fun _ =>
    (Act.FailsIn.look id).bind fun _ => regular_pushTotal fun _ =>
      totalFrom_regular id fun _ _ he => by cases he

theorem fieldTerm_regular {op : Opcode} {w : Workspace σ} {array field : String} {i : Nat}
    {f : Fault} (h : fieldTerm op w array field i = .error f) : ¬ f.IsMalformed := by
  unfold fieldTerm at h
  split at h
  · cases h; exact id
  · dsimp only at h
    split at h <;> cases h
    exact id

theorem regular_fieldSum (op : Opcode) (array field : String) :
    (fieldSum op array field : Effect σ Unit).Regular :=
  (regular_header op array).bind fun h => (regular_expectKind op array h _).bind fun _ =>
    (Act.FailsIn.look id).bind fun _ => regular_pushTotal fun _ =>
      totalFrom_regular id fun _ _ => fieldTerm_regular

end Effect

/-! ### Instructions -/

/-- The same direction with its target renamed. -/
def Control.map {L M : Type} (f : L → M) : Control L → Control M
  | .next         => .next
  | .enter target => .enter (f target)
  | .leave        => .leave

namespace Instr

variable {σ L M : Type} [Store σ]

/-- No instruction blames malformed bytes. -/
theorem regular_perform (i : Instr L) : (i.perform : Effect σ (Control L)).Regular := by
  obtain ⟨op, as⟩ := i
  cases op with
  | compare c => exact (Effect.regular_binary Comparison.apply_regular).bind fun _ => .pure _
  | connect c => exact (Effect.regular_binary Connective.apply_regular).bind fun _ => .pure _
  | compute a => exact (Effect.regular_binary Arithmetic.apply_regular).bind fun _ => .pure _
  | not =>
    exact (Effect.regular_onStack (Stack.regular_pop _)).bind fun _ =>
      (Effect.regular_pushResult fun _ => negate_regular).bind fun _ => .pure _
  | ifThen =>
    refine (Effect.regular_onStack (Stack.regular_popFlag _)).bind fun b => ?_
    split
    · exact .pure _
    · exact .pure _
  | ifElse =>
    refine (Effect.regular_onStack (Stack.regular_popFlag _)).bind fun b => ?_
    split
    · exact .pure _
    · exact .pure _
  | call | close | endStruct => exact .pure _
  | loadLocal | loadRemote =>
    exact (Act.FailsIn.look _).bind fun _ =>
      (Effect.regular_pushResult fun _ => typedCell_regular).bind fun _ => .pure _
  | set s =>
    exact (Effect.regular_popScalar _ s).bind fun _ =>
      (Effect.regular_storeLocal _ _).bind fun _ => .pure _
  | sendNative =>
    exact (Act.FailsIn.look _).bind fun _ => (Effect.regular_party _).bind fun _ =>
      (Effect.regular_request _ _).bind fun _ => .pure _
  | transfer =>
    exact (Effect.regular_party _).bind fun _ => (Act.FailsIn.look _).bind fun _ =>
      (Effect.regular_party _).bind fun _ => (Effect.regular_request _ _).bind fun _ => .pure _
  | transferVar =>
    exact (Act.FailsIn.look _).bind fun _ => (Effect.regular_party _).bind fun _ =>
      (Act.FailsIn.look _).bind fun _ => (Effect.regular_party _).bind fun _ =>
        (Effect.regular_request _ _).bind fun _ => .pure _
  | transferFrom =>
    exact (Effect.regular_party _).bind fun _ => (Act.FailsIn.look _).bind fun _ =>
      (Effect.regular_party _).bind fun _ => (Effect.regular_party _).bind fun _ =>
        (Effect.regular_request _ _).bind fun _ => .pure _
  | balanceOf =>
    exact (Effect.regular_party _).bind fun _ => (Effect.regular_party _).bind fun _ =>
      (Act.FailsIn.look _).bind fun _ => (Effect.regular_push _).bind fun _ => .pure _
  | allowance =>
    exact (Effect.regular_party _).bind fun _ => (Effect.regular_party _).bind fun _ =>
      (Effect.regular_party _).bind fun _ => (Act.FailsIn.look _).bind fun _ =>
        (Effect.regular_push _).bind fun _ => .pure _
  | mint | burn =>
    exact (Effect.regular_party _).bind fun _ => (Effect.regular_party _).bind fun _ =>
      (Effect.regular_request _ _).bind fun _ => .pure _
  | declare =>
    exact (Effect.regular_name _ _).bind fun _ =>
      (Effect.regular_declare _ _ _).bind fun _ => .pure _
  | append =>
    exact (Effect.regular_name _ _).bind fun _ =>
      (Effect.regular_append _ _ _ _).bind fun _ => .pure _
  | element =>
    exact (Effect.regular_name _ _).bind fun _ =>
      (Effect.regular_element _ _ _).bind fun _ => .pure _
  | sum =>
    exact (Effect.regular_name _ _).bind fun _ => (Effect.regular_sum _ _).bind fun _ => .pure _
  | fieldSum =>
    exact (Effect.regular_name _ _).bind fun _ => (Effect.regular_name _ _).bind fun _ =>
      (Effect.regular_fieldSum _ _ _).bind fun _ => .pure _
  | length =>
    exact (Effect.regular_name _ _).bind fun _ =>
      (Effect.regular_length _ _).bind fun _ => .pure _
  | struct => exact (Effect.regular_storeFields _).bind fun _ => .pure _
  | literal s => cases s <;> exact (Effect.regular_push _).bind fun _ => .pure _
  | read r => exact (Act.FailsIn.look _).bind fun _ => (Effect.regular_push _).bind fun _ => .pure _

/-- Renaming the branch targets renames where an instruction leads, and nothing else. -/
theorem perform_mapLabels (f : L → M) (i : Instr L) :
    ((i.mapLabels f).perform : Effect σ (Control M)) = Control.map f <$> i.perform := by
  obtain ⟨op, as⟩ := i
  cases op with
  | ifThen | ifElse =>
    simp only [mapLabels, Operands.mapLabels, Operand.mapLabels, perform, map_bind]
    congr 1
    funext b
    cases b <;> rfl
  | literal s =>
    cases s <;>
      simp only [mapLabels, Operands.mapLabels, Operand.mapLabels, perform, map_bind, map_pure,
        Control.map]
  | _ =>
    simp only [mapLabels, Operands.mapLabels, Operand.mapLabels, perform, map_bind, map_pure,
      Control.map]

/-- Where an instruction may lead: into a body that it names, and out of one if it closes it. -/
def Leads (i : Instr L) : Control L → Prop
  | .next         => i.opcode ≠ .close
  | .enter target => target ∈ i.labels
  | .leave        => i.opcode = .close

/-- An instruction leads to the next one, to one of its labels, or back if it closes a block. -/
theorem leads_perform (i : Instr L) : (i.perform : Effect σ (Control L)).Gives i.Leads := by
  obtain ⟨op, as⟩ := i
  cases op with
  | ifThen =>
    refine .bind fun b => ?_
    cases b with
    | true => exact .pure List.mem_cons_self
    | false => exact .pure (by rintro ⟨⟩)
  | ifElse =>
    refine .bind fun b => ?_
    cases b with
    | true => exact .pure List.mem_cons_self
    | false => exact .pure (List.mem_cons_of_mem _ List.mem_cons_self)
  | call => exact .pure List.mem_cons_self
  | close => exact .pure rfl
  | endStruct => exact .pure (by rintro ⟨⟩)
  | compare | connect | compute | struct => exact .bind fun _ => .pure (by rintro ⟨⟩)
  | literal s => cases s <;> exact .bind fun _ => .pure (by rintro ⟨⟩)
  | not | loadLocal | loadRemote | set | declare | append | element | sum | length | read =>
    exact .bind fun _ => .bind fun _ => .pure (by rintro ⟨⟩)
  | sendNative | fieldSum | mint | burn =>
    exact .bind fun _ => .bind fun _ => .bind fun _ => .pure (by rintro ⟨⟩)
  | transfer | balanceOf =>
    exact .bind fun _ => .bind fun _ => .bind fun _ => .bind fun _ => .pure (by rintro ⟨⟩)
  | transferVar | transferFrom | allowance =>
    exact .bind fun _ => .bind fun _ => .bind fun _ => .bind fun _ => .bind fun _ =>
      .pure (by rintro ⟨⟩)

/-- An instruction with a label closes no block. -/
theorem opcode_ne_close_of_mem_labels {i : Instr L} {l : L} (h : l ∈ i.labels) :
    i.opcode ≠ .close := by
  obtain ⟨op, as⟩ := i
  rintro rfl
  cases h

/-- An instruction that names no body and closes none leads to the next one. -/
theorem perform_bind_of_plain {α : Type} {i : Instr L} (hl : i.labels = [])
    (hc : i.opcode ≠ .close) (f : Control L → Effect σ α) :
    i.perform >>= f = i.perform >>= fun _ => f .next := by
  refine i.leads_perform.bind_congr fun c hleads => ?_
  cases c with
  | next => rfl
  | enter l =>
    rw [Leads, hl] at hleads
    cases hleads
  | leave => exact absurd hleads hc

end Instr

/-! ### Names that the reader refuses -/

/-- A kind that the opcode lists passes the check. -/
theorem runnable_variant {op : Opcode} {k : ValueKind} (hk : k ∈ op.variants) :
    Reader.runnable op .variant k = none :=
  if_pos (List.contains_iff_mem.mpr hk)

/-- An instruction refuses the names that the reader refuses, with the same fault. -/
theorem Effect.name_of_refused {σ : Type} {op : Opcode} {n : Word} {f : Fault}
    (h : Reader.runnable op .name n = some f) (w : Workspace σ) :
    (Effect.name op n : Effect σ String) w = (.error f, w) := by
  have hr : (if (nameText? n).isSome then none else some (Fault.badName op)) = some f := h
  rw [Effect.name]
  cases hn : nameText? n with
  | some s => rw [hn] at hr; cases hr
  | none => rw [hn] at hr; cases hr; rfl

/-- A name that passed the check is a text. -/
theorem Effect.name_of_accepted {σ : Type} {op : Opcode} {n : Word}
    (h : Reader.runnable op .name n = none) (w : Workspace σ) :
    ∃ s, (Effect.name op n : Effect σ String) w = (.ok s, w) := by
  have hr : (if (nameText? n).isSome then none else some (Fault.badName op)) = none := h
  rw [Effect.name]
  cases hn : nameText? n with
  | some s => exact ⟨s, rfl⟩
  | none => rw [hn] at hr; cases hr

/-- A sound instruction with an operand that the reader refuses fails as the reader does, and
leaves its workspace alone. -/
theorem Instr.perform_of_defect {σ : Type} [Store σ] {i : Instr Nat} {fits : Nat → Prop}
    {f : Fault} (hs : i.Sound fits) (hd : i.defect? Reader.runnable = some f)
    (w : Workspace σ) : i.perform w = (.error f, w) := by
  obtain ⟨op, as⟩ := i
  cases op with
  | sum | length | append | element =>
    rcases Option.or_eq_some_iff.mp hd with hn | ⟨_, hd⟩
    · exact Act.bind_of_error (Effect.name_of_refused hn w) _
    · cases hd
  | fieldSum =>
    rcases Option.or_eq_some_iff.mp hd with hn | ⟨hn, hd⟩
    · exact Act.bind_of_error (Effect.name_of_refused hn w) _
    · obtain ⟨array, ha⟩ := Effect.name_of_accepted hn w
      rcases Option.or_eq_some_iff.mp hd with hn | ⟨_, hd⟩
      · rw [perform, Act.bind_of_ok ha]
        exact Act.bind_of_error (Effect.name_of_refused hn w) _
      · cases hd
  | declare =>
    -- a sound kind is never refused, so it was the name
    rcases Option.or_eq_some_iff.mp hd with hk | ⟨_, hd⟩
    · rw [runnable_variant hs.1] at hk
      cases hk
    · rcases Option.or_eq_some_iff.mp hd with hn | ⟨_, hd⟩
      · exact Act.bind_of_error (Effect.name_of_refused hn w) _
      · cases hd
  | loadLocal | loadRemote =>
    rcases Option.or_eq_some_iff.mp hd with hk | ⟨_, hd⟩
    · rw [runnable_variant hs.1] at hk
      cases hk
    · cases hd
  | literal s => cases s <;> cases hd
  | _ => cases hd

end Proviso
