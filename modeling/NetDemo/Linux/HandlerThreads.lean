import NetDemo.Linux.RequestHandler
import NetDemo.Foundation.Transition
import Mathlib.Logic.Function.Basic

/-! The threads of `http_server.c` in their `request_handler`s. Each has arrays of its own, but all their calls
of `strtok` share the one pointer that `strtok` keeps. -/

namespace NetDemo.Linux.HttpServer
open Foundation Http

/-! ### One handler from each of its statements on -/

namespace Arrays

def answer (arrays : Arrays) : Except Fault Reply := do
  let ct ← strcpy arrays.ct (typeOf (cstr arrays.extension.mem 0) ++ [0]) (some 0)
  if cstr arrays.method.mem 0 ≠ ascii "GET" then pure .sendError
  else pure (.sendData (cstr ct.mem 0) (cstr arrays.file_name.mem 0))

def copyExtension (arrays : Arrays) (mem : Bytes) (token : Option ℕ) : Except Fault Reply := do
  let extension ← strcpy arrays.extension mem token
  { arrays with extension := extension }.answer

def cutExtension (arrays : Arrays) (mem : Bytes) (save_ptr : ℕ) : Except Fault Reply := do
  let t ← strtok mem save_ptr (ascii ".")
  arrays.copyExtension t.mem t.token

def cutStem (arrays : Arrays) (mem : Bytes) : Except Fault Reply := do
  let t ← strtok mem 0 (ascii ".")
  arrays.cutExtension t.mem t.save_ptr

def openName (arrays : Arrays) : Except Fault Reply := do
  let file_name ← strcpy arrays.content_file_name arrays.file_name.mem (some 0)
  arrays.cutStem file_name.mem

def copyName (arrays : Arrays) (mem : Bytes) (token : Option ℕ) : Except Fault Reply := do
  let file_name ← strcpy arrays.file_name mem token
  { arrays with file_name := file_name }.openName

def cutName (arrays : Arrays) (mem : Bytes) (save_ptr : ℕ) : Except Fault Reply := do
  let t ← strtok mem save_ptr (ascii " /")
  arrays.copyName t.mem t.token

def copyMethod (arrays : Arrays) (mem : Bytes) (token : Option ℕ) (save_ptr : ℕ) : Except Fault Reply := do
  let method ← strcpy arrays.method mem token
  { arrays with method := method }.cutName mem save_ptr

def cutMethod (arrays : Arrays) (mem : Bytes) : Except Fault Reply := do
  let t ← strtok mem 0 (ascii " /")
  arrays.copyMethod t.mem t.token t.save_ptr

end Arrays

theorem contentType_bind {β : Type} (arrays : Arrays) (file : Bytes) (f : Bytes → Except Fault β) :
    contentType arrays file >>= f = (do
      let file_name ← strcpy arrays.content_file_name file (some 0)
      let first ← strtok file_name.mem 0 (ascii ".")
      let second ← strtok first.mem first.save_ptr (ascii ".")
      let extension ← strcpy arrays.extension second.mem second.token
      f (typeOf (cstr extension.mem 0))) := by
  have hlast (extension : Block SMALL_BUF) :
      (if cstr extension.mem 0 = ascii "html" ∨ cstr extension.mem 0 = ascii "htm" then
        (pure (ascii "text/html") : Except Fault Bytes) else pure (ascii "text/plain")) >>= f =
      f (typeOf (cstr extension.mem 0)) := by
    unfold typeOf
    split_ifs <;> exact pure_bind _ _
  simp only [contentType, bind_assoc, hlast]

theorem requestHandler_eq (arrays : Arrays) (clnt_read : Bytes) : requestHandler arrays clnt_read =
    match strstr (ascii "HTTP/") ((fgets arrays.req_line clnt_read).getD arrays.req_line).mem with
    | none => .error .beyond
    | some none => .ok .sendError
    | some (some _) => arrays.cutMethod ((fgets arrays.req_line clnt_read).getD arrays.req_line).mem := by
  unfold requestHandler
  simp only [contentType_bind]
  cases strstr (ascii "HTTP/") ((fgets arrays.req_line clnt_read).getD arrays.req_line).mem with
  | none => rfl
  | some found => cases found <;> rfl

namespace Threads

/-- The arrays that `strtok` cuts: `req_line`, and the `file_name` of `content_type`. -/
inductive Text
  | req_line | file_name
  deriving DecidableEq

/-- A pointer into an array of the handler of one thread. -/
structure Place where
  thread : ℕ
  text : Text
  offset : ℕ
  deriving DecidableEq

/-- The statement that a handler comes to next, with the token that it copies. -/
inductive Stage
  | readLine
  | cutMethod
  | copyMethod (token : Option Place)
  | cutName
  | copyName (token : Option Place)
  | openName
  | cutStem
  | cutExtension
  | copyExtension (token : Option Place)
  | answer
  | replied (reply : Reply)
  | faulted (fault : Fault)
  deriving DecidableEq

structure Handler where
  /-- What stands in the arrays, save for the two that `strtok` cuts once they are filled. -/
  arrays : Arrays
  clnt_read : Bytes
  req_line : Bytes
  content_file_name : Bytes
  stage : Stage

/-- The text of an array, as long as the function that it belongs to has not returned. -/
def Handler.text (h : Handler) : Text → Option Bytes
  | .req_line => match h.stage with
    | .readLine | .replied _ | .faulted _ => none
    | _ => some h.req_line
  | .file_name => match h.stage with
    | .cutStem | .cutExtension | .copyExtension _ | .answer => some h.content_file_name
    | _ => none

def Handler.store (h : Handler) (mem : Bytes) : Text → Handler
  | .req_line => { h with req_line := mem }
  | .file_name => { h with content_file_name := mem }

structure State where
  handlers : ℕ → Handler
  /-- The static variable of `strtok`. -/
  save_ptr : Option Place

namespace State

/-- A thread that is created later makes its first step later. -/
def start (arrays : ℕ → Arrays) (clnt_read : ℕ → Bytes) : State :=
  ⟨fun i => ⟨arrays i, clnt_read i, [], [], .readLine⟩, none⟩

def set (s : State) (i : ℕ) (h : Handler) : State := { s with handlers := Function.update s.handlers i h }

def goTo (s : State) (i : ℕ) (stage : Stage) : State := s.set i { s.handlers i with stage := stage }

/-- `strtok` in the thread `i`; `p` is its argument, or the kept pointer where the argument is NULL. -/
def strtok (s : State) (i : ℕ) (p : Option Place) (delim : Bytes) (next : Option Place → Stage) : State :=
  match p with
  | none => s.goTo i (.faulted .null)
  | some p =>
    match (s.handlers p.thread).text p.text with
    | none => s.goTo i (.faulted .beyond)
    | some mem =>
      match Foundation.strtok mem p.offset delim with
      | .error fault => s.goTo i (.faulted fault)
      | .ok t =>
        let s := s.set p.thread ((s.handlers p.thread).store t.mem p.text)
        { s with save_ptr := some { p with offset := t.save_ptr } }.goTo i
          (next (t.token.map fun offset => { p with offset := offset }))

/-- `strcpy` of a token in the thread `i`. -/
def strcpy {n : ℕ} (s : State) (i : ℕ) (dst : Block n) (p : Option Place) (next : Block n → Handler) : State :=
  match p with
  | none => s.goTo i (.faulted .null)
  | some p =>
    match (s.handlers p.thread).text p.text with
    | none => s.goTo i (.faulted .beyond)
    | some mem =>
      match Foundation.strcpy dst mem (some p.offset) with
      | .error fault => s.goTo i (.faulted fault)
      | .ok b => s.set i (next b)

/-- The next statement of the thread `i`. A fault ends the process; here the other threads may go on. -/
def step (s : State) (i : ℕ) : Option State :=
  let h := s.handlers i
  match h.stage with
  | .readLine =>
    let req_line := ((fgets h.arrays.req_line h.clnt_read).getD h.arrays.req_line).mem
    match strstr (ascii "HTTP/") req_line with
    | none => some (s.goTo i (.faulted .beyond))
    | some none => some (s.goTo i (.replied .sendError))
    | some (some _) => some (s.set i { h with req_line := req_line, stage := .cutMethod })
  | .cutMethod => some (s.strtok i (some ⟨i, .req_line, 0⟩) (ascii " /") .copyMethod)
  | .copyMethod token => some (s.strcpy i h.arrays.method token fun method =>
      { h with arrays.method := method, stage := .cutName })
  -- Whoever called `strtok` last has set the pointer.
  | .cutName => some (s.strtok i s.save_ptr (ascii " /") .copyName)
  | .copyName token => some (s.strcpy i h.arrays.file_name token fun file_name =>
      { h with arrays.file_name := file_name, stage := .openName })
  | .openName =>
    match Foundation.strcpy h.arrays.content_file_name h.arrays.file_name.mem (some 0) with
    | .error fault => some (s.goTo i (.faulted fault))
    | .ok file_name => some (s.set i { h with content_file_name := file_name.mem, stage := .cutStem })
  | .cutStem => some (s.strtok i (some ⟨i, .file_name, 0⟩) (ascii ".") fun _ => .cutExtension)
  | .cutExtension => some (s.strtok i s.save_ptr (ascii ".") .copyExtension)
  | .copyExtension token => some (s.strcpy i h.arrays.extension token fun extension =>
      { h with arrays.extension := extension, stage := .answer })
  | .answer =>
    match h.arrays.answer with
    | .error fault => some (s.goTo i (.faulted fault))
    | .ok reply => some (s.goTo i (.replied reply))
  | .replied _ | .faulted _ => none

end State

/-- Nobody else called `strtok` since the thread did, when it goes on with the text of its last call. -/
def Undisturbed (s : State) (i : ℕ) : Prop :=
  match (s.handlers i).stage with
  | .cutName | .cutExtension => s.save_ptr.map Place.thread = some i
  | _ => True

instance (s : State) (i : ℕ) : Decidable (Undisturbed s i) := by
  unfold Undisturbed
  split <;> infer_instance

/-! ### A thread that is not disturbed -/

/-- What the handler still does, when `save_ptr` is the offset that its last call of `strtok` kept. -/
def Handler.rest (h : Handler) (save_ptr : ℕ) : Except Fault Reply :=
  match h.stage with
  | .readLine => requestHandler h.arrays h.clnt_read
  | .cutMethod => h.arrays.cutMethod h.req_line
  | .copyMethod token => h.arrays.copyMethod h.req_line (token.map Place.offset) save_ptr
  | .cutName => h.arrays.cutName h.req_line save_ptr
  | .copyName token => h.arrays.copyName h.req_line (token.map Place.offset)
  | .openName => h.arrays.openName
  | .cutStem => h.arrays.cutStem h.content_file_name
  | .cutExtension => h.arrays.cutExtension h.content_file_name save_ptr
  | .copyExtension token => h.arrays.copyExtension h.content_file_name (token.map Place.offset)
  | .answer => h.arrays.answer
  | .replied reply => .ok reply
  | .faulted fault => .error fault

/-- The tokens of the thread `i` are in its own arrays, and so is the kept pointer when it is from the thread
itself. -/
def Stage.Own (i : ℕ) (save : Option Place) (save_ptr : ℕ) : Stage → Prop
  | .copyMethod token => (∀ p ∈ token, p = ⟨i, .req_line, p.offset⟩) ∧
      ∀ p ∈ save, p.thread = i → p = ⟨i, .req_line, save_ptr⟩
  | .cutName => ∀ p ∈ save, p.thread = i → p = ⟨i, .req_line, save_ptr⟩
  | .copyName token => ∀ p ∈ token, p = ⟨i, .req_line, p.offset⟩
  | .cutExtension => ∀ p ∈ save, p.thread = i → p = ⟨i, .file_name, save_ptr⟩
  | .copyExtension token => ∀ p ∈ token, p = ⟨i, .file_name, p.offset⟩
  | _ => True

/-- The thread `i` is on its way to the end that `request_handler` comes to alone. -/
def Along (done : Except Fault Reply) (i : ℕ) (s : State) : Prop :=
  ∃ save_ptr, (s.handlers i).rest save_ptr = done ∧ (s.handlers i).stage.Own i s.save_ptr save_ptr

namespace State
variable {s s' : State} {i j : ℕ}

@[simp] theorem set_handlers_self (s : State) (i : ℕ) (h : Handler) : (s.set i h).handlers i = h :=
  Function.update_self ..

theorem set_handlers_of_ne (s : State) {i j : ℕ} (h : Handler) (hij : j ≠ i) :
    (s.set i h).handlers j = s.handlers j := Function.update_of_ne hij ..

@[simp] theorem goTo_handlers_self (s : State) (i : ℕ) (stage : Stage) :
    (s.goTo i stage).handlers i = { s.handlers i with stage := stage } := Function.update_self ..

theorem goTo_handlers_of_ne (s : State) {i j : ℕ} (stage : Stage) (hij : j ≠ i) :
    (s.goTo i stage).handlers j = s.handlers j := Function.update_of_ne hij ..

/-- Of all threads but `i` nothing is changed, and the kept pointer is not theirs if it is new. -/
structure Apart (i : ℕ) (s s' : State) : Prop where
  handlers : ∀ j, j ≠ i → s'.handlers j = s.handlers j
  save_ptr : ∀ p ∈ s'.save_ptr, p ∈ s.save_ptr ∨ p.thread = i

theorem apart_set (s : State) (i : ℕ) (h : Handler) : Apart i s (s.set i h) :=
  ⟨fun _ hj => s.set_handlers_of_ne h hj, fun _ hp => .inl hp⟩

theorem apart_strtok {p : Option Place} (hp : ∀ q ∈ p, q.thread = i) (delim : Bytes)
    (next : Option Place → Stage) : Apart i s (s.strtok i p delim next) := by
  unfold strtok
  split
  · exact s.apart_set i _
  next p =>
    obtain rfl := hp p rfl
    split
    · exact s.apart_set _ _
    split
    · exact s.apart_set _ _
    · refine ⟨fun j hj => ?_, fun q hq => .inr ?_⟩
      · rw [goTo_handlers_of_ne _ _ hj]
        exact s.set_handlers_of_ne _ hj
      · obtain rfl := Option.some.inj hq
        rfl

theorem apart_strcpy {n : ℕ} (dst : Block n) (p : Option Place) (next : Block n → Handler) :
    Apart i s (s.strcpy i dst p next) := by
  unfold strcpy
  split
  · exact s.apart_set i _
  · split
    · exact s.apart_set i _
    · split <;> exact s.apart_set i _

theorem apart_step (hok : Undisturbed s i) (hs' : s.step i = some s') : Apart i s s' := by
  simp only [step] at hs'
  unfold Undisturbed at hok
  have hkept (hthread : s.save_ptr.map Place.thread = some i) : ∀ q ∈ s.save_ptr, q.thread = i := by
    intro q hq
    rw [Option.mem_def.1 hq] at hthread
    exact Option.some.inj hthread
  split at hs'
  · split at hs' <;> obtain rfl := Option.some.inj hs' <;> exact s.apart_set i _
  · obtain rfl := Option.some.inj hs'
    exact apart_strtok (by simp) _ _
  · obtain rfl := Option.some.inj hs'
    exact apart_strcpy _ _ _
  next hstage =>
    rw [hstage] at hok
    obtain rfl := Option.some.inj hs'
    exact apart_strtok (hkept hok) _ _
  · obtain rfl := Option.some.inj hs'
    exact apart_strcpy _ _ _
  · split at hs' <;> obtain rfl := Option.some.inj hs' <;> exact s.apart_set i _
  · obtain rfl := Option.some.inj hs'
    exact apart_strtok (by simp) _ _
  next hstage =>
    rw [hstage] at hok
    obtain rfl := Option.some.inj hs'
    exact apart_strtok (hkept hok) _ _
  · obtain rfl := Option.some.inj hs'
    exact apart_strcpy _ _ _
  · split at hs' <;> obtain rfl := Option.some.inj hs' <;> exact s.apart_set i _
  · cases hs'
  · cases hs'

end State
section
variable {s s' : State} {i j : ℕ} {done : Except Fault Reply}

theorem along_faulted {fault : Fault} (h : (.error fault : Except Fault Reply) = done) :
    Along done i (s.goTo i (.faulted fault)) := by
  refine ⟨0, ?_, ?_⟩
  · rw [State.goTo_handlers_self]
    exact h
  · rw [State.goTo_handlers_self]
    trivial

theorem along_strtok {text : Text} {offset : ℕ} {mem delim : Bytes} {next : Option Place → Stage}
    {cont : Strtok → Except Fault Reply} (htext : (s.handlers i).text text = some mem)
    (hrest : Foundation.strtok mem offset delim >>= cont = done)
    (hnext : ∀ t : Strtok, ({ (s.handlers i).store t.mem text with
        stage := next (t.token.map fun offset => ⟨i, text, offset⟩) } : Handler).rest t.save_ptr = cont t ∧
      (next (t.token.map fun offset => ⟨i, text, offset⟩)).Own i (some ⟨i, text, t.save_ptr⟩) t.save_ptr) :
    Along done i (s.strtok i (some ⟨i, text, offset⟩) delim next) := by
  subst hrest
  simp only [State.strtok, htext]
  cases Foundation.strtok mem offset delim with
  | error fault => exact along_faulted rfl
  | ok t =>
    refine ⟨t.save_ptr, ?_, ?_⟩
    · rw [State.goTo_handlers_self]
      simp only [State.set_handlers_self]
      exact (hnext t).1
    · rw [State.goTo_handlers_self]
      exact (hnext t).2

theorem along_strcpy (save_ptr : ℕ) {n : ℕ} {dst : Block n} {token : Option Place} {text : Text} {mem : Bytes}
    {next : Block n → Handler} {cont : Block n → Except Fault Reply}
    (htoken : ∀ p ∈ token, p = ⟨i, text, p.offset⟩) (htext : (s.handlers i).text text = some mem)
    (hrest : Foundation.strcpy dst mem (token.map Place.offset) >>= cont = done)
    (hnext : ∀ b, (next b).rest save_ptr = cont b ∧ (next b).stage.Own i s.save_ptr save_ptr) :
    Along done i (s.strcpy i dst token next) := by
  subst hrest
  cases token with
  | none => exact along_faulted rfl
  | some p =>
    obtain ⟨thread, text', offset⟩ := p
    obtain ⟨rfl, rfl, -⟩ := Place.mk.inj (htoken _ rfl)
    simp only [State.strcpy, htext, Option.map_some]
    cases Foundation.strcpy dst mem (some offset) with
    | error fault => exact along_faulted rfl
    | ok b =>
      refine ⟨save_ptr, ?_, ?_⟩
      · rw [State.set_handlers_self]
        exact (hnext b).1
      · rw [State.set_handlers_self]
        exact (hnext b).2

theorem along_set {h : Handler} (hrest : h.rest 0 = done) (hown : h.stage.Own i s.save_ptr 0) :
    Along done i (s.set i h) :=
  ⟨0, by rw [State.set_handlers_self, hrest], by rw [State.set_handlers_self]; exact hown⟩

theorem Along.step (h : Along done i s) (hok : Undisturbed s i) (hs' : s.step i = some s') :
    Along done i s' := by
  obtain ⟨save_ptr, hrest, hown⟩ := h
  unfold Undisturbed at hok
  simp only [State.step] at hs'
  cases hstage : (s.handlers i).stage with
  | readLine =>
    simp only [Handler.rest, hstage, requestHandler_eq] at hrest
    simp only [hstage] at hs'
    cases hfound : strstr (ascii "HTTP/")
        ((fgets (s.handlers i).arrays.req_line (s.handlers i).clnt_read).getD (s.handlers i).arrays.req_line).mem with
    | none =>
      simp only [hfound] at hs' hrest
      obtain rfl := Option.some.inj hs'
      exact along_faulted hrest
    | some found =>
      cases found with
      | none =>
        simp only [hfound] at hs' hrest
        obtain rfl := Option.some.inj hs'
        exact along_set hrest trivial
      | some k =>
        simp only [hfound] at hs' hrest
        obtain rfl := Option.some.inj hs'
        exact along_set hrest trivial
  | cutMethod =>
    simp only [Handler.rest, hstage] at hrest
    simp only [hstage] at hs'
    obtain rfl := Option.some.inj hs'
    refine along_strtok (by simp only [Handler.text, hstage]) hrest fun t => ⟨?_, ?_⟩
    · simp [Handler.rest, Handler.store, Option.map_map, Function.comp_def]
    · simp [Stage.Own]
  | copyMethod token =>
    simp only [Handler.rest, hstage] at hrest
    simp only [hstage] at hs'
    rw [hstage] at hown
    obtain rfl := Option.some.inj hs'
    exact along_strcpy save_ptr hown.1 (by simp only [Handler.text, hstage]) hrest fun b => ⟨rfl, hown.2⟩
  | cutName =>
    -- Nobody came in between, so the kept pointer is into the line of this thread.
    simp only [Handler.rest, hstage] at hrest
    simp only [hstage] at hs' hok
    rw [hstage] at hown
    obtain rfl := Option.some.inj hs'
    obtain ⟨p, hp, hthread⟩ := Option.map_eq_some_iff.1 hok
    rw [hp, hown p hp hthread]
    refine along_strtok (by simp only [Handler.text, hstage]) hrest fun t => ⟨?_, ?_⟩
    · simp [Handler.rest, Handler.store, Option.map_map, Function.comp_def]
    · simp [Stage.Own]
  | copyName token =>
    simp only [Handler.rest, hstage] at hrest
    simp only [hstage] at hs'
    rw [hstage] at hown
    obtain rfl := Option.some.inj hs'
    exact along_strcpy 0 hown (by simp only [Handler.text, hstage]) hrest fun b => ⟨rfl, trivial⟩
  | openName =>
    simp only [Handler.rest, hstage, Arrays.openName] at hrest
    simp only [hstage] at hs'
    cases hcopy : Foundation.strcpy (s.handlers i).arrays.content_file_name (s.handlers i).arrays.file_name.mem
        (some 0) with
    | error fault =>
      rw [hcopy] at hs' hrest
      obtain rfl := Option.some.inj hs'
      exact along_faulted hrest
    | ok b =>
      rw [hcopy] at hs' hrest
      obtain rfl := Option.some.inj hs'
      exact along_set hrest trivial
  | cutStem =>
    simp only [Handler.rest, hstage] at hrest
    simp only [hstage] at hs'
    obtain rfl := Option.some.inj hs'
    refine along_strtok (by simp only [Handler.text, hstage]) hrest fun t => ⟨?_, ?_⟩
    · rfl
    · simp [Stage.Own]
  | cutExtension =>
    simp only [Handler.rest, hstage] at hrest
    simp only [hstage] at hs' hok
    rw [hstage] at hown
    obtain rfl := Option.some.inj hs'
    obtain ⟨p, hp, hthread⟩ := Option.map_eq_some_iff.1 hok
    rw [hp, hown p hp hthread]
    refine along_strtok (by simp only [Handler.text, hstage]) hrest fun t => ⟨?_, ?_⟩
    · simp [Handler.rest, Handler.store, Option.map_map, Function.comp_def]
    · simp [Stage.Own]
  | copyExtension token =>
    simp only [Handler.rest, hstage] at hrest
    simp only [hstage] at hs'
    rw [hstage] at hown
    obtain rfl := Option.some.inj hs'
    exact along_strcpy 0 hown (by simp only [Handler.text, hstage]) hrest fun b => ⟨rfl, trivial⟩
  | answer =>
    simp only [Handler.rest, hstage] at hrest
    simp only [hstage] at hs'
    cases hanswer : (s.handlers i).arrays.answer with
    | error fault =>
      rw [hanswer] at hs' hrest
      obtain rfl := Option.some.inj hs'
      exact along_faulted hrest
    | ok reply =>
      rw [hanswer] at hs' hrest
      obtain rfl := Option.some.inj hs'
      exact along_set hrest trivial
  | replied reply => simp only [hstage] at hs'; cases hs'
  | faulted fault => simp only [hstage] at hs'; cases hs'

theorem Along.apart (h : Along done j s) (hapart : s.Apart i s') (hij : j ≠ i) : Along done j s' := by
  obtain ⟨save_ptr, hrest, hown⟩ := h
  refine ⟨save_ptr, by rw [hapart.handlers j hij]; exact hrest, ?_⟩
  rw [hapart.handlers j hij]
  have hkept {text : Text} (hold : ∀ p ∈ s.save_ptr, p.thread = j → p = ⟨j, text, save_ptr⟩) :
      ∀ p ∈ s'.save_ptr, p.thread = j → p = ⟨j, text, save_ptr⟩ := by
    intro p hp hthread
    rcases hapart.save_ptr p hp with hp | hi
    · exact hold p hp hthread
    · exact absurd (hthread.symm.trans hi) hij
  generalize (s.handlers j).stage = stage at hown ⊢
  cases stage with
  | copyMethod token => exact ⟨hown.1, hkept hown.2⟩
  | cutName | cutExtension => exact hkept hown
  | copyName token | copyExtension token => exact hown
  | readLine | cutMethod | openName | cutStem | answer | replied _ | faulted _ => trivial

theorem along_run {arrays : ℕ → Arrays} {clnt_read : ℕ → Bytes} {threads : List ℕ}
    (hmeets : Meets State.step Undisturbed (.start arrays clnt_read) threads)
    (hrun : run State.step (.start arrays clnt_read) threads = some s) (i : ℕ) :
    Along (requestHandler (arrays i) (clnt_read i)) i s := by
  have hstart : Along (requestHandler (arrays i) (clnt_read i)) i (.start arrays clnt_read) :=
    ⟨0, rfl, (trivial : Stage.readLine.Own i none 0)⟩
  refine run_invariant (Along _ i) hstart (fun s j s' h hok hs' => ?_) hmeets hrun
  by_cases hij : i = j
  · subst hij
    exact h.step hok hs'
  · exact h.apart (State.apart_step hok hs') hij

/-! ### The end of a thread -/

def Stage.left : Stage → ℕ
  | readLine => 10
  | cutMethod => 9
  | copyMethod _ => 8
  | cutName => 7
  | copyName _ => 6
  | openName => 5
  | cutStem => 4
  | cutExtension => 3
  | copyExtension _ => 2
  | answer => 1
  | replied _ | faulted _ => 0

theorem left_strtok {k : ℕ} {p : Option Place} {delim : Bytes} {next : Option Place → Stage}
    (hnext : ∀ token, (next token).left ≤ k) :
    ((s.strtok i p delim next).handlers i).stage.left ≤ k := by
  unfold State.strtok
  split
  · rw [State.goTo_handlers_self]
    exact Nat.zero_le k
  split
  · rw [State.goTo_handlers_self]
    exact Nat.zero_le k
  split
  · rw [State.goTo_handlers_self]
    exact Nat.zero_le k
  · rw [State.goTo_handlers_self]
    exact hnext _

theorem left_strcpy {k n : ℕ} {dst : Block n} {p : Option Place} {next : Block n → Handler}
    (hnext : ∀ b, (next b).stage.left ≤ k) : ((s.strcpy i dst p next).handlers i).stage.left ≤ k := by
  unfold State.strcpy
  split
  · rw [State.goTo_handlers_self]
    exact Nat.zero_le k
  split
  · rw [State.goTo_handlers_self]
    exact Nat.zero_le k
  split
  · rw [State.goTo_handlers_self]
    exact Nat.zero_le k
  · rw [State.set_handlers_self]
    exact hnext _

theorem left_step (hs' : s.step i = some s') :
    (s'.handlers i).stage.left + 1 ≤ (s.handlers i).stage.left := by
  simp only [State.step] at hs'
  split at hs'
  next hstage =>
    rw [hstage]
    split at hs' <;> obtain rfl := Option.some.inj hs' <;> simp [Stage.left]
  next hstage =>
    rw [hstage]
    obtain rfl := Option.some.inj hs'
    exact Nat.succ_le_succ (left_strtok fun _ => le_rfl)
  next hstage =>
    rw [hstage]
    obtain rfl := Option.some.inj hs'
    exact Nat.succ_le_succ (left_strcpy fun _ => le_rfl)
  next hstage =>
    rw [hstage]
    obtain rfl := Option.some.inj hs'
    exact Nat.succ_le_succ (left_strtok fun _ => le_rfl)
  next hstage =>
    rw [hstage]
    obtain rfl := Option.some.inj hs'
    exact Nat.succ_le_succ (left_strcpy fun _ => le_rfl)
  next hstage =>
    rw [hstage]
    split at hs' <;> obtain rfl := Option.some.inj hs' <;> simp [Stage.left]
  next hstage =>
    rw [hstage]
    obtain rfl := Option.some.inj hs'
    exact Nat.succ_le_succ (left_strtok fun _ => le_rfl)
  next hstage =>
    rw [hstage]
    obtain rfl := Option.some.inj hs'
    exact Nat.succ_le_succ (left_strtok fun _ => le_rfl)
  next hstage =>
    rw [hstage]
    obtain rfl := Option.some.inj hs'
    exact Nat.succ_le_succ (left_strcpy fun _ => le_rfl)
  next hstage =>
    rw [hstage]
    split at hs' <;> obtain rfl := Option.some.inj hs' <;> simp [Stage.left]
  · cases hs'
  · cases hs'

theorem left_le (h : Stage) : h.left ≤ 10 := by cases h <;> simp [Stage.left]

theorem exists_end (s : State) (i : ℕ) :
    ∃ n ≤ 10, ∃ s', run State.step s (List.replicate n i) = some s' ∧ s'.step i = none := by
  suffices h : ∀ k (s : State), (s.handlers i).stage.left ≤ k →
      ∃ n ≤ k, ∃ s', run State.step s (List.replicate n i) = some s' ∧ s'.step i = none from h 10 s (left_le _)
  intro k
  induction k with
  | zero =>
    intro s hleft
    refine ⟨0, le_rfl, s, rfl, ?_⟩
    cases hs' : s.step i with
    | none => rfl
    | some s' => exact absurd (left_step hs') (by omega)
  | succ k ih =>
    intro s hleft
    cases hs' : s.step i with
    | none => exact ⟨0, Nat.zero_le _, s, rfl, hs'⟩
    | some s' =>
      obtain ⟨n, hn, s'', hrun, hend⟩ := ih s' (by have := left_step hs'; omega)
      refine ⟨n + 1, Nat.succ_le_succ hn, s'', ?_, hend⟩
      rw [List.replicate_succ, run_cons, hs', Option.bind_some]
      exact hrun

theorem left_of_end (hend : s.step i = none) : (s.handlers i).stage.left = 0 := by
  simp only [State.step] at hend
  cases hstage : (s.handlers i).stage with
  | readLine | openName | answer =>
    simp only [hstage] at hend
    split at hend <;> cases hend
  | replied _ | faulted _ => rfl
  | _ =>
    simp only [hstage] at hend
    cases hend

theorem Along.reply_iff (h : Along done i s) (hend : s.step i = none) :
    (∃ reply, (s.handlers i).stage = .replied reply) ↔ ∃ reply, done = .ok reply := by
  obtain ⟨save_ptr, rfl, -⟩ := h
  have hleft := left_of_end hend
  unfold Handler.rest
  cases hstage : (s.handlers i).stage with
  | replied reply => simp
  | faulted fault => simp
  | _ => rw [hstage] at hleft; cases hleft

/-- However the threads take turns: as long as none is disturbed between two calls of `strtok` for one text,
every handler whose line passes the check comes to an end, and to a reply just when its line has the shape
that its arrays and its calls of `strtok` need. -/
theorem replied_iff_shape {arrays : ℕ → Arrays} {clnt_read : ℕ → Bytes} {threads : List ℕ}
    (hmeets : Meets State.step Undisturbed (.start arrays clnt_read) threads)
    (hrun : run State.step (.start arrays clnt_read) threads = some s) {req_line : Block SMALL_BUF}
    (hline : fgets (arrays i).req_line (clnt_read i) = some req_line)
    (hhttp : ascii "HTTP/" <:+: cstr req_line.mem 0) :
    (∃ n ≤ 10, ∃ s', run State.step s (List.replicate n i) = some s' ∧ s'.step i = none) ∧
      (s.step i = none → ((∃ reply, (s.handlers i).stage = .replied reply) ↔
        ∃ method file_name, Shape (cstr req_line.mem 0) method file_name)) :=
  ⟨exists_end s i, fun hend => ((along_run hmeets hrun i).reply_iff hend).trans
    (requestHandler_ok_iff hline hhttp)⟩

/-- Two threads, whose calls of `strtok` come between each other for different texts only. -/
def turns : List ℕ := [0, 1, 0, 0, 0, 1, 1, 1, 0, 0, 1, 0, 0, 1, 1, 1, 0, 0, 1, 1]

def pages (i : ℕ) : Bytes :=
  if i = 0 then ascii "GET /index.html HTTP/1.1\r\n" else ascii "GET /logo.png HTTP/1.1\r\n"

theorem replied_iff_shape_turns :
    ∃ s, run State.step (.start (fun _ => default) pages) turns = some s ∧
      ∃ reply, (s.handlers 0).stage = .replied reply := by
  have hend : (run State.step (.start (fun _ => default) pages) turns).any fun s =>
      (s.step 0).isNone := by decide +kernel
  obtain ⟨s, hs, hnone⟩ := exists_of_any hend
  obtain ⟨req_line, hline, hcstr⟩ := fgets_of_ne_nil (default : Arrays).req_line (by decide)
    (show pages 0 ≠ [] by decide)
  have hstr : cstr req_line.mem 0 = ascii "GET /index.html HTTP/1.1\r\n" := by
    rw [hcstr]
    decide
  have hhttp : ascii "HTTP/" <:+: cstr req_line.mem 0 := by
    rw [hstr]
    exact ⟨ascii "GET /index.html ", ascii "1.1\r\n", by decide⟩
  refine ⟨s, hs, ((replied_iff_shape (by decide +kernel) hs hline hhttp).2
    (Option.isNone_iff_eq_none.1 hnone)).2 ⟨ascii "GET", ascii "index.html", ?_⟩⟩
  rw [hstr]
  exact
    { parts := ⟨[], ascii " /", ascii " HTTP/1.1\r\n", by decide +kernel⟩
      method_token := by decide +kernel
      file_name_token := by decide +kernel
      extension := ⟨ascii "index", ascii "html", by decide⟩ }

/-- The start page has no dot in its name, so that `strcpy` reads through NULL. A page that has one comes to
the same end when another thread called `strtok` in between. -/
theorem start_page_faults :
    (∃ req_line, fgets (default : Arrays).req_line (ascii "GET / HTTP/1.1\r\n") = some req_line ∧
      ascii "HTTP/" <:+: cstr req_line.mem 0) ∧
    (∃ s, run State.step (.start (fun _ => default) fun _ => ascii "GET / HTTP/1.1\r\n")
      (List.replicate 9 0) = some s ∧ (s.handlers 0).stage = .faulted .null) ∧
    ∃ s, run State.step (.start (fun _ => default) pages)
      ([0, 0, 0, 1, 1, 1, 1] ++ List.replicate 6 0) = some s ∧ (s.handlers 0).stage = .faulted .null := by
  have halone : (run State.step (.start (fun _ => default) fun _ => ascii "GET / HTTP/1.1\r\n")
      (List.replicate 9 0)).any fun s => decide ((s.handlers 0).stage = .faulted .null) := by decide +kernel
  have hdisturbed : (run State.step (.start (fun _ => default) pages)
      ([0, 0, 0, 1, 1, 1, 1] ++ List.replicate 6 0)).any fun s =>
        decide ((s.handlers 0).stage = .faulted .null) := by decide +kernel
  obtain ⟨req_line, hline, hcstr⟩ := fgets_of_ne_nil (default : Arrays).req_line (by decide)
    (show ascii "GET / HTTP/1.1\r\n" ≠ [] by decide)
  have hstr : cstr req_line.mem 0 = ascii "GET / HTTP/1.1\r\n" := by
    rw [hcstr]
    decide
  obtain ⟨s, hs, hfault⟩ := exists_of_any halone
  obtain ⟨s', hs', hfault'⟩ := exists_of_any hdisturbed
  refine ⟨⟨req_line, hline, ?_⟩, ⟨s, hs, of_decide_eq_true hfault⟩, s', hs', of_decide_eq_true hfault'⟩
  rw [hstr]
  exact ⟨ascii "GET / ", ascii "1.1\r\n", by decide⟩

end

end Threads
end NetDemo.Linux.HttpServer
