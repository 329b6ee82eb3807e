import Mathlib.Logic.Function.Basic
import X64SmpOs.Lib.Ring
import X64SmpOs.Lib.Runs

/-!
# Lists of `struct list_head`

The structures are nodes of a type; two different ones do not overlap in memory. A
list and its entries are linked in the same way, and no function knows which node is
the list.

* `Heap`, `listAdd`, `listDel` and so on: the code;
* `Lists`: which nodes are lists, and their entries in order; `Step` what each
  function does there;
* `Holds`: the links in memory are those of the lists;
* `exec_holds`, `run_holds`: every function, and every run of them, refines `Step`;
* `run_walks`: what the loops over a list meet after a run;
* `forEachEntrySafe_filter`: the safe loop with a body that takes entries out;
* `listDel_head`: taking out the list itself does not empty it.
-/

namespace X64SmpOs.ListHead

open X64SmpOs.Ring Runs

universe u
variable {α : Type u} [DecidableEq α]

/-! ## The code -/

structure Heap (α : Type u) where
  next : α → α
  prev : α → α

def Heap.setNext (m : Heap α) (p v : α) : Heap α :=
  { m with next := Function.update m.next p v }

def Heap.setPrev (m : Heap α) (p v : α) : Heap α :=
  { m with prev := Function.update m.prev p v }

/-- `INIT_LIST_HEAD`. -/
def initListHead (m : Heap α) (list : α) : Heap α := (m.setPrev list list).setNext list list

/-- `__list_add`. -/
def listAddBetween (m : Heap α) (entry prev next : α) : Heap α :=
  (((m.setPrev next entry).setNext entry next).setPrev entry prev).setNext prev entry

def listAdd (m : Heap α) (entry head : α) : Heap α :=
  listAddBetween m entry head (m.next head)

def listAddTail (m : Heap α) (entry head : α) : Heap α :=
  listAddBetween m entry (m.prev head) head

/-- `__list_del`. -/
def listDelBetween (m : Heap α) (prev next : α) : Heap α :=
  (m.setPrev next prev).setNext prev next

def listDel (m : Heap α) (entry : α) : Heap α :=
  listDelBetween m (m.prev entry) (m.next entry)

def listDelInit (m : Heap α) (entry : α) : Heap α :=
  initListHead (listDelBetween m (m.prev entry) (m.next entry)) entry

def listMoveTail (m : Heap α) (list head : α) : Heap α :=
  listAddTail (listDelBetween m (m.prev list) (m.next list)) list head

def listEmpty (m : Heap α) (head : α) : Bool := decide (m.next head = head)

/-- The entries `list_for_each_entry` comes to, when the body changes no links. -/
def forEachEntry (m : Heap α) (head : α) (fuel : Nat) : Option (List α) :=
  walk m.next head fuel (m.next head)

def forEachEntryReverse (m : Heap α) (head : α) (fuel : Nat) : Option (List α) :=
  walk m.prev head fuel (m.prev head)

/-- The rounds of `list_for_each_entry_safe`; `tmp` is read before the body runs. -/
def safeLoop (body : Heap α → α → Heap α) (head : α) : Nat → Heap α → α → α → Option (Heap α)
  | 0, _, _, _ => none
  | fuel + 1, m, pos, tmp =>
    if pos = head then some m
    else safeLoop body head fuel (body m pos) tmp ((body m pos).next tmp)

def forEachEntrySafe (body : Heap α → α → Heap α) (head : α) (fuel : Nat) (m : Heap α) :
    Option (Heap α) :=
  safeLoop body head fuel m (m.next head) (m.next (m.next head))

inductive Op (α : Type u)
  | init (list : α)
  | add (entry head : α)
  | addTail (entry head : α)
  | del (entry : α)
  | delInit (entry : α)
  | moveTail (list head : α)

def exec (m : Heap α) : Op α → Heap α
  | .init list => initListHead m list
  | .add entry head => listAdd m entry head
  | .addTail entry head => listAddTail m entry head
  | .del entry => listDel m entry
  | .delInit entry => listDelInit m entry
  | .moveTail list head => listMoveTail m list head

/-! ## Lists of entries -/

/-- The entries of each node that is a list. -/
abbrev Lists (α : Type u) := α → Option (List α)

/-- In no list, and no list with entries. -/
structure Lists.Free (L : Lists α) (e : α) : Prop where
  list : ∀ xs, L e = some xs → xs = []
  entry : ∀ h xs, L h = some xs → e ∉ xs

def Lists.set (L : Lists α) (h : α) (xs : List α) : Lists α := Function.update L h (some xs)

def Lists.forget (L : Lists α) (e : α) : Lists α := Function.update L e none

/-- What the functions do to the lists, where their callers keep to the comments: an
entry is put into one list at a time, and taken out of the list it is in. -/
inductive Step : Lists α → Op α → Lists α → Prop
  | init {L : Lists α} {h : α} (hf : ∀ h' xs, L h' = some xs → h ∉ xs) :
      Step L (.init h) (L.set h [])
  | add {L : Lists α} {e h : α} {xs : List α} (he : e ≠ h) (hf : L.Free e) (hh : L h = some xs) :
      Step L (.add e h) ((L.forget e).set h (e :: xs))
  | addTail {L : Lists α} {e h : α} {xs : List α} (he : e ≠ h) (hf : L.Free e)
      (hh : L h = some xs) : Step L (.addTail e h) ((L.forget e).set h (xs ++ [e]))
  | del {L : Lists α} {e h : α} {xs : List α} (hh : L h = some xs) (he : e ∈ xs) :
      Step L (.del e) (L.set h (xs.erase e))
  | delEmpty {L : Lists α} {e : α} (he : L e = some []) : Step L (.del e) L
  | delInit {L : Lists α} {e h : α} {xs : List α} (hh : L h = some xs) (he : e ∈ xs) :
      Step L (.delInit e) ((L.set h (xs.erase e)).set e [])
  | delInitEmpty {L : Lists α} {e : α} (he : L e = some []) : Step L (.delInit e) L
  | moveTail {L : Lists α} {e h h' : α} {xs ys : List α} (hh : L h = some xs) (he : e ∈ xs)
      (ht : L.set h (xs.erase e) h' = some ys) :
      Step L (.moveTail e h') ((L.set h (xs.erase e)).set h' (ys ++ [e]))

def noLists : Lists α := fun _ => none

/-- The rings in memory are the lists, and no two of them meet. -/
structure Holds (m : Heap α) (L : Lists α) : Prop where
  ring : ∀ h xs, L h = some xs → Linked m.next m.prev h xs
  apart : ∀ h xs h' xs', L h = some xs → L h' = some xs' → h ≠ h' →
    List.Disjoint (h :: xs) (h' :: xs')

omit [DecidableEq α] in
/-- No list has been made yet. -/
theorem holds_none (m : Heap α) : Holds m noLists := by
  constructor
  · intro h xs hh
    cases hh
  · intro h xs h' xs' hh
    cases hh

theorem lists_set (L : Lists α) (h h' : α) (xs : List α) :
    L.set h xs h' = if h' = h then some xs else L h' := by
  simp only [Lists.set, Function.update_apply]

theorem lists_forget (L : Lists α) (e h : α) :
    L.forget e h = if h = e then none else L h := by
  simp only [Lists.forget, Function.update_apply]

theorem Holds.forget {m : Heap α} {L : Lists α} (H : Holds m L) (e : α) : Holds m (L.forget e) := by
  have hsub : ∀ h xs, L.forget e h = some xs → L h = some xs := by
    intro h xs hh
    rw [lists_forget] at hh
    split at hh
    · cases hh
    · exact hh
  exact ⟨fun h xs hh => H.ring h xs (hsub h xs hh),
    fun h xs h' xs' hh hh' => H.apart h xs h' xs' (hsub h xs hh) (hsub h' xs' hh')⟩

/-- One ring made anew; no node of another one is written or taken. -/
theorem Holds.set {m m' : Heap α} {L : Lists α} (H : Holds m L) {h : α} {xs : List α}
    (hr : Linked m'.next m'.prev h xs)
    (hframe : ∀ h' ys, L h' = some ys → h' ≠ h →
      ∀ x ∈ h' :: ys, x ∉ h :: xs ∧ m'.next x = m.next x ∧ m'.prev x = m.prev x) :
    Holds m' (L.set h xs) := by
  constructor
  · intro h' ys hh
    rw [lists_set] at hh
    split at hh
    · next he =>
      obtain rfl := Option.some.inj hh
      rw [he]
      exact hr
    · next he =>
      have hf := hframe h' ys hh he
      exact ring_congr (fun x hx => (hf x hx).2.1) (fun x hx => (hf x hx).2.2) (H.ring h' ys hh)
  · intro h1 ys1 h2 ys2 hh1 hh2 hne
    rw [lists_set] at hh1 hh2
    split at hh1
    · next he1 =>
      obtain rfl := Option.some.inj hh1
      rw [if_neg (fun he2 => hne (he1.trans he2.symm))] at hh2
      intro x hx1 hx2
      exact (hframe h2 ys2 hh2 (fun he2 => hne (he1.trans he2.symm)) x hx2).1 (he1 ▸ hx1)
    · next he1 =>
      split at hh2
      · next he2 =>
        obtain rfl := Option.some.inj hh2
        intro x hx1 hx2
        exact (hframe h1 ys1 hh1 he1 x hx1).1 (he2 ▸ hx2)
      · exact H.apart h1 ys1 h2 ys2 hh1 hh2 hne

/-! ## The links -/

theorem addBetween_next (m : Heap α) {e p q x : α} (he : x ≠ e) (hp : x ≠ p) :
    (listAddBetween m e p q).next x = m.next x := by
  simp [listAddBetween, Heap.setNext, Heap.setPrev, Function.update_of_ne, he, hp]

theorem addBetween_prev (m : Heap α) {e p q x : α} (he : x ≠ e) (hq : x ≠ q) :
    (listAddBetween m e p q).prev x = m.prev x := by
  simp [listAddBetween, Heap.setNext, Heap.setPrev, Function.update_of_ne, he, hq]

theorem addBetween_links (m : Heap α) (e p q : α) (hp : e ≠ p) (hq : q ≠ e) :
    ((listAddBetween m e p q).next p = e ∧ (listAddBetween m e p q).prev e = p) ∧
      (listAddBetween m e p q).next e = q ∧ (listAddBetween m e p q).prev q = e := by
  simp [listAddBetween, Heap.setNext, Heap.setPrev, hp, hq]

theorem delBetween_next (m : Heap α) {p q x : α} (hp : x ≠ p) :
    (listDelBetween m p q).next x = m.next x := by
  simp [listDelBetween, Heap.setNext, Heap.setPrev, hp]

theorem delBetween_prev (m : Heap α) {p q x : α} (hq : x ≠ q) :
    (listDelBetween m p q).prev x = m.prev x := by
  simp [listDelBetween, Heap.setNext, Heap.setPrev, hq]

theorem delBetween_links (m : Heap α) (p q : α) :
    (listDelBetween m p q).next p = q ∧ (listDelBetween m p q).prev q = p := by
  simp [listDelBetween, Heap.setNext, Heap.setPrev]

omit [DecidableEq α] in
/-- The two nodes `__list_add` and `__list_del` get as `prev` and `next`. -/
theorem mem_ends (h : α) (as bs : List α) :
    as.getLastD h ∈ h :: (as ++ bs) ∧ bs.headD h ∈ h :: (as ++ bs) := by
  constructor
  · rcases List.mem_cons.mp (getLastD_mem h as) with hm | hm
    · rw [hm]
      exact List.mem_cons_self
    · exact List.mem_cons_of_mem h (List.mem_append_left bs hm)
  · rcases List.mem_append.mp (headD_mem bs h) with hm | hm
    · exact List.mem_cons_of_mem h (List.mem_append_right as hm)
    · rw [List.mem_singleton.mp hm]
      exact List.mem_cons_self

theorem linked_add {m : Heap α} {h e : α} {as bs : List α}
    (hr : Linked m.next m.prev h (as ++ bs)) (he : e ∉ h :: (as ++ bs)) :
    Linked (listAddBetween m e (as.getLastD h) (bs.headD h)).next
      (listAddBetween m e (as.getLastD h) (bs.headD h)).prev h (as ++ e :: bs) := by
  obtain ⟨hlast, hhead⟩ := mem_ends h as bs
  obtain ⟨hbefore, hbehind⟩ := addBetween_links m e (as.getLastD h) (bs.headD h)
    (fun hx => he (hx ▸ hlast)) (fun hx => he (hx ▸ hhead))
  have hrot : (as ++ (bs ++ [h])).Nodup := by
    rw [← List.append_assoc]
    exact nodup_rotate hr.nodup
  constructor
  · rw [show h :: (as ++ e :: bs) = (h :: as) ++ e :: bs from rfl, List.nodup_middle,
      List.nodup_cons]
    exact ⟨he, hr.nodup⟩
  · refine path_insert hr.nodup hrot hbefore hbehind (fun x hx hne => ?_) (fun x hx hne => ?_)
      hr.path
    · exact addBetween_next m (fun hxe => he (hxe ▸ hx)) hne
    · refine addBetween_prev m (fun hxe => he ?_) hne
      rw [← List.append_assoc] at hx
      exact hxe ▸ (List.perm_append_singleton h (as ++ bs)).mem_iff.mp hx

theorem linked_del {m : Heap α} {h e : α} (as bs : List α)
    (hr : Linked m.next m.prev h (as ++ e :: bs)) :
    Linked (listDel m e).next (listDel m e).prev h (as ++ bs) := by
  have hpath := (path_append h as e bs h).mp hr.path
  have hnext : m.next e = bs.headD h := path_next hpath.2
  have hprev : m.prev e = as.getLastD h := path_prev hpath.1
  have hrot : (as ++ e :: (bs ++ [h])).Nodup := by
    have hr' := nodup_rotate hr.nodup
    rwa [List.append_assoc] at hr'
  have hnodup : (h :: (as ++ bs)).Nodup := by
    have hn := hr.nodup
    rw [show h :: (as ++ e :: bs) = (h :: as) ++ e :: bs from rfl, List.nodup_middle] at hn
    exact (List.nodup_cons.mp hn).2
  unfold listDel
  rw [hnext, hprev]
  refine ⟨hnodup, path_remove hr.nodup hrot (delBetween_links m _ _) (fun x _ hne => ?_)
    (fun x _ hne => ?_) hr.path⟩
  · exact delBetween_next m hne
  · exact delBetween_prev m hne

/-! ## One call -/

section
variable {m : Heap α} {L : Lists α}

omit [DecidableEq α] in
/-- The nodes of another list are none of this one's. -/
theorem Holds.other (H : Holds m L) {h h' : α} {xs ys : List α} (hh : L h = some xs)
    (hh' : L h' = some ys) (hne : h' ≠ h) {x : α} (hx : x ∈ h' :: ys) : x ∉ h :: xs :=
  fun hx' => H.apart h' ys h xs hh' hh hne hx hx'

theorem initListHead_holds (H : Holds m L) {h : α} (hf : ∀ h' xs, L h' = some xs → h ∉ xs) :
    Holds (initListHead m h) (L.set h []) := by
  have hother : ∀ x, x ≠ h → (initListHead m h).next x = m.next x ∧
      (initListHead m h).prev x = m.prev x := by
    intro x hx
    simp [initListHead, Heap.setNext, Heap.setPrev, hx]
  refine H.set (ring_nil ?_ ?_) fun h' ys hh hne x hx => ?_
  · simp [initListHead, Heap.setNext, Heap.setPrev]
  · simp [initListHead, Heap.setNext, Heap.setPrev]
  · have hxh : x ≠ h := by
      intro he
      rcases List.mem_cons.mp hx with hx | hx
      · exact hne (hx.symm.trans he)
      · exact hf h' ys hh (he ▸ hx)
    exact ⟨by simpa using hxh, hother x hxh⟩

/-- `__list_add` between the two parts of a list. -/
theorem addBetween_holds (H : Holds m L) {h e : α} (as bs : List α) (hne : e ≠ h)
    (hf : L.Free e) (hh : L h = some (as ++ bs)) :
    Holds (listAddBetween m e (as.getLastD h) (bs.headD h))
      ((L.forget e).set h (as ++ e :: bs)) := by
  have he : e ∉ h :: (as ++ bs) := by
    rw [List.mem_cons, not_or]
    exact ⟨hne, hf.entry h _ hh⟩
  obtain ⟨hlast, hhead⟩ := mem_ends h as bs
  refine (H.forget e).set (linked_add (H.ring h _ hh) he) fun h' ys hh' hne' x hx => ?_
  rw [lists_forget] at hh'
  split at hh'
  · cases hh'
  · next he' =>
    have hxe : x ≠ e := by
      intro hxe
      rcases List.mem_cons.mp hx with hx | hx
      · exact he' (hx.symm.trans hxe)
      · exact hf.entry h' ys hh' (hxe ▸ hx)
    have hout := H.other hh hh' hne' hx
    refine ⟨?_, addBetween_next m hxe (fun hx => hout (hx ▸ hlast)),
      addBetween_prev m hxe (fun hx => hout (hx ▸ hhead))⟩
    rw [List.mem_cons, List.mem_append, List.mem_cons]
    rw [List.mem_cons, List.mem_append] at hout
    rintro (h1 | h1 | h1 | h1)
    · exact hout (.inl h1)
    · exact hout (.inr (.inl h1))
    · exact hxe h1
    · exact hout (.inr (.inr h1))

theorem listAdd_holds (H : Holds m L) {h e : α} {xs : List α} (hne : e ≠ h) (hf : L.Free e)
    (hh : L h = some xs) : Holds (listAdd m e h) ((L.forget e).set h (e :: xs)) := by
  unfold listAdd
  rw [path_next (H.ring h xs hh).path]
  exact addBetween_holds H [] xs hne hf hh

theorem listAddTail_holds (H : Holds m L) {h e : α} {xs : List α} (hne : e ≠ h) (hf : L.Free e)
    (hh : L h = some xs) : Holds (listAddTail m e h) ((L.forget e).set h (xs ++ [e])) := by
  unfold listAddTail
  rw [path_prev (H.ring h xs hh).path]
  exact addBetween_holds H xs [] hne hf (by rwa [List.append_nil])

theorem listDel_holds (H : Holds m L) {h e : α} {xs : List α} (hh : L h = some xs)
    (he : e ∈ xs) : Holds (listDel m e) (L.set h (xs.erase e)) := by
  obtain ⟨as, bs, -, rfl, herase⟩ := List.exists_erase_eq he
  rw [herase]
  have hr := H.ring h _ hh
  have hpath := (path_append h as e bs h).mp hr.path
  obtain ⟨hlast, hhead⟩ := mem_ends h as bs
  have hsub : ∀ x ∈ h :: (as ++ bs), x ∈ h :: (as ++ e :: bs) := by
    intro x hx
    simp only [List.mem_cons, List.mem_append] at hx ⊢
    tauto
  refine H.set (linked_del as bs hr) fun h' ys hh' hne x hx => ?_
  have hout := H.other hh hh' hne hx
  refine ⟨fun hx' => hout (hsub x hx'), ?_, ?_⟩
  · refine delBetween_next m fun hx' => hout (hsub x ?_)
    rw [hx', path_prev hpath.1]
    exact hlast
  · refine delBetween_prev m fun hx' => hout (hsub x ?_)
    rw [hx', path_next hpath.2]
    exact hhead

/-- Taking an entry out frees it. -/
theorem Holds.free_erase (H : Holds m L) {h e : α} {xs : List α} (hh : L h = some xs)
    (he : e ∈ xs) : (L.set h (xs.erase e)).Free e ∧ L.set h (xs.erase e) e = none := by
  have hnodup := (List.nodup_cons.mp (H.ring h xs hh).nodup)
  have hne : e ≠ h := fun heq => hnodup.1 (heq ▸ he)
  have hnone : L e = none := by
    cases hL : L e with
    | none => rfl
    | some ys =>
      exact absurd (List.mem_cons_of_mem h he) (H.other hh hL hne List.mem_cons_self)
  have hnone' : L.set h (xs.erase e) e = none := by rw [lists_set, if_neg hne, hnone]
  refine ⟨⟨fun ys hy => ?_, fun h' ys hy => ?_⟩, hnone'⟩
  · rw [hnone'] at hy
    cases hy
  · rw [lists_set] at hy
    split at hy
    · obtain rfl := Option.some.inj hy
      exact fun hm => (hnodup.2.mem_erase_iff.mp hm).1 rfl
    · next hne' =>
      exact fun hm => H.other hh hy hne' (List.mem_cons_of_mem h' hm) (List.mem_cons_of_mem h he)

theorem forget_of_none {L : Lists α} {e : α} (h : L e = none) : L.forget e = L := by
  funext x
  rw [lists_forget]
  split
  · next hx => rw [hx, h]
  · rfl

/-- A list without entries is linked to itself, and taking it out changes nothing. -/
theorem listDel_empty (H : Holds m L) {e : α} (he : L e = some []) : listDel m e = m := by
  obtain ⟨hn, hp⟩ := (H.ring e [] he).path
  simp only [listDel, listDelBetween, Heap.setNext, Heap.setPrev, hn, hp]
  congr 1
  · exact Function.update_eq_self_iff.mpr hn.symm
  · exact Function.update_eq_self_iff.mpr hp.symm

theorem listDelInit_holds (H : Holds m L) {h e : α} {xs : List α} (hh : L h = some xs)
    (he : e ∈ xs) : Holds (listDelInit m e) ((L.set h (xs.erase e)).set e []) :=
  initListHead_holds (listDel_holds H hh he) (H.free_erase hh he).1.entry

theorem listDelInit_empty (H : Holds m L) {e : α} (he : L e = some []) :
    Holds (listDelInit m e) L := by
  have hentry : ∀ h xs, L h = some xs → e ∉ xs := by
    intro h xs hh hm
    by_cases heq : h = e
    · rw [heq, he] at hh
      rw [← Option.some.inj hh] at hm
      cases hm
    · exact H.other he hh heq (List.mem_cons_of_mem h hm) List.mem_cons_self
  have hset : L.set e [] = L := by rw [Lists.set, ← he, Function.update_eq_self]
  have hinit := initListHead_holds H hentry
  rw [hset, ← listDel_empty H he] at hinit
  exact hinit

theorem listMoveTail_holds (H : Holds m L) {h h' e : α} {xs ys : List α} (hh : L h = some xs)
    (he : e ∈ xs) (ht : L.set h (xs.erase e) h' = some ys) :
    Holds (listMoveTail m e h') ((L.set h (xs.erase e)).set h' (ys ++ [e])) := by
  obtain ⟨hfree, hnone⟩ := H.free_erase hh he
  have hne : e ≠ h' := by
    intro heq
    rw [← heq, hnone] at ht
    cases ht
  have hadd := listAddTail_holds (listDel_holds H hh he) hne hfree ht
  rwa [forget_of_none hnone] at hadd

/-- **One call.** Every function does to the links what `Step` does to the lists. -/
theorem exec_holds (H : Holds m L) {op : Op α} {L' : Lists α} (hs : Step L op L') :
    Holds (exec m op) L' := by
  cases hs with
  | init hf => exact initListHead_holds H hf
  | add hne hf hh => exact listAdd_holds H hne hf hh
  | addTail hne hf hh => exact listAddTail_holds H hne hf hh
  | del hh he => exact listDel_holds H hh he
  | delEmpty he =>
    rw [exec, listDel_empty H he]
    exact H
  | delInit hh he => exact listDelInit_holds H hh he
  | delInitEmpty he => exact listDelInit_empty H he
  | moveTail hh he ht => exact listMoveTail_holds H hh he ht

end

/-! ## Runs -/

/-- **Runs.** After any run of calls the links in memory are those of the lists. -/
theorem run_holds {m : Heap α} {L L' : Lists α} {ops : List (Op α)} (H : Holds m L)
    (hr : Run Step L ops L') : Holds (ops.foldl exec m) L' := by
  induction ops generalizing m L with
  | nil =>
    obtain rfl := hr
    exact H
  | cons op ops ih =>
    obtain ⟨L1, hs, hr⟩ := hr
    exact ih (exec_holds H hs) hr

theorem Holds.walks {m : Heap α} {L : Lists α} (H : Holds m L) {h : α} {xs : List α}
    (hh : L h = some xs) {fuel : Nat} (hf : xs.length < fuel) :
    forEachEntry m h fuel = some xs ∧ forEachEntryReverse m h fuel = some xs.reverse ∧
      (listEmpty m h = true ↔ xs = []) := by
  have hr := H.ring h xs hh
  refine ⟨walk_ring hr hf, walk_ring (ring_reverse hr) (by rwa [List.length_reverse]), ?_⟩
  rw [listEmpty, decide_eq_true_iff, path_next hr.path]
  constructor
  · intro he
    cases xs with
    | nil => rfl
    | cons x xs => exact absurd he fun hx : x = h =>
        (List.nodup_cons.mp hr.nodup).1 (hx ▸ List.mem_cons_self)
  · intro he
    rw [he]
    rfl

/-- **Loops after a run.** Made from any memory, every list is met in its order, and
backwards in the opposite one, and `list_empty` tells whether it has entries. -/
theorem run_walks (m : Heap α) {L : Lists α} {ops : List (Op α)}
    (hr : Run Step noLists ops L) {h : α} {xs : List α} (hh : L h = some xs) {fuel : Nat}
    (hf : xs.length < fuel) :
    forEachEntry (ops.foldl exec m) h fuel = some xs ∧
      forEachEntryReverse (ops.foldl exec m) h fuel = some xs.reverse ∧
      (listEmpty (ops.foldl exec m) h = true ↔ xs = []) :=
  (run_holds (holds_none m) hr).walks hh hf

section Sample

/-- The lists `0` and `9`. -/
def twoLists (xs ys : List Nat) : Lists Nat := (noLists.set 0 xs).set 9 ys

theorem twoLists_some {xs ys zs : List Nat} {h : Nat} (hh : twoLists xs ys h = some zs) :
    h = 9 ∧ zs = ys ∨ h = 0 ∧ zs = xs := by
  simp only [twoLists, lists_set] at hh
  split_ifs at hh with h9 h0
  · exact .inl ⟨h9, (Option.some.inj hh).symm⟩
  · exact .inr ⟨h0, (Option.some.inj hh).symm⟩
  · cases hh

/-- A new entry of the list `0`. -/
theorem twoLists_new {xs ys : List Nat} {e : Nat} (he : e ∉ 0 :: 9 :: (xs ++ ys))
    (zs : List Nat) :
    (twoLists xs ys).Free e ∧ ((twoLists xs ys).forget e).set 0 zs = twoLists zs ys := by
  simp only [List.mem_cons, List.mem_append, not_or] at he
  refine ⟨⟨fun xs' h => ?_, fun h xs' hh => ?_⟩, ?_⟩
  · rcases twoLists_some h with ⟨h9, -⟩ | ⟨h0, -⟩
    · exact absurd h9 he.2.1
    · exact absurd h0 he.1
  · rcases twoLists_some hh with ⟨-, rfl⟩ | ⟨-, rfl⟩
    · exact he.2.2.2
    · exact he.2.2.1
  · funext x
    simp only [twoLists, lists_set, lists_forget, noLists]
    grind

theorem step_addTail {xs ys : List Nat} {e : Nat} (he : e ∉ 0 :: 9 :: (xs ++ ys)) :
    Step (twoLists xs ys) (.addTail e 0) (twoLists (xs ++ [e]) ys) := by
  obtain ⟨hfree, heq⟩ := twoLists_new he (xs ++ [e])
  rw [← heq]
  exact .addTail (List.ne_of_not_mem_cons he) hfree rfl

theorem step_add {xs ys : List Nat} {e : Nat} (he : e ∉ 0 :: 9 :: (xs ++ ys)) :
    Step (twoLists xs ys) (.add e 0) (twoLists (e :: xs) ys) := by
  obtain ⟨hfree, heq⟩ := twoLists_new he (e :: xs)
  rw [← heq]
  exact .add (List.ne_of_not_mem_cons he) hfree rfl

theorem step_moveTail {xs ys : List Nat} {e : Nat} (he : e ∈ xs) :
    Step (twoLists xs ys) (.moveTail e 9) (twoLists (xs.erase e) (ys ++ [e])) := by
  have hstep : Step (twoLists xs ys) (.moveTail e 9)
      (((twoLists xs ys).set 0 (xs.erase e)).set 9 (ys ++ [e])) := .moveTail rfl he rfl
  have heq : ((twoLists xs ys).set 0 (xs.erase e)).set 9 (ys ++ [e]) =
      twoLists (xs.erase e) (ys ++ [e]) := by
    funext x
    simp only [twoLists, lists_set]
    grind
  rwa [heq] at hstep

/-- Entries are put at both ends of the list `0`, and one is moved to the list `9`. -/
def sampleOps : List (Op Nat) :=
  [.init 0, .init 9, .addTail 1 0, .addTail 2 0, .add 3 0, .addTail 4 0, .addTail 5 0,
    .moveTail 2 9]

theorem run_sample : Run Step noLists sampleOps (twoLists [3, 1, 4, 5] [2]) := by
  have hnone : ∀ h xs, (noLists : Lists Nat) h ≠ some xs := fun _ _ h => by cases h
  have hone : ∀ h xs, noLists.set 0 [] h = some xs → 9 ∉ xs := by
    intro h xs hh
    rw [lists_set] at hh
    split at hh
    · exact Option.some.inj hh ▸ List.not_mem_nil
    · exact absurd hh (hnone h xs)
  exact ⟨_, .init fun h xs hh => absurd hh (hnone h xs), twoLists [] [], .init hone,
    _, step_addTail (by decide), _, step_addTail (by decide), _, step_add (by decide),
    _, step_addTail (by decide), _, step_addTail (by decide), _, step_moveTail (by decide), rfl⟩

theorem run_walks_sample :
    let m : Heap Nat := sampleOps.foldl exec ⟨id, id⟩
    forEachEntry m 0 5 = some [3, 1, 4, 5] ∧
      forEachEntryReverse m 0 5 = some [3, 1, 4, 5].reverse ∧
      (listEmpty m 0 = true ↔ [3, 1, 4, 5] = []) :=
  run_walks ⟨id, id⟩ run_sample rfl (by decide)

end Sample

/-! ## The safe loop -/

/-- What the body of a safe loop does with an entry. -/
inductive Fate (α : Type u)
  | keep
  | del
  | delInit
  | moveTail (head : α)
  deriving DecidableEq

def dispose (fate : α → Fate α) (m : Heap α) (e : α) : Heap α :=
  match fate e with
  | .keep => m
  | .del => listDel m e
  | .delInit => listDelInit m e
  | .moveTail head => listMoveTail m e head

/-- The entries moved behind the list `t`. -/
def movedTo (fate : α → Fate α) (t : α) (xs : List α) : List α :=
  xs.filter fun e => fate e = .moveTail t

def kept (fate : α → Fate α) (xs : List α) : List α := xs.filter fun e => fate e = .keep

/-- Entries are moved to other lists only. -/
def Targets (fate : α → Fate α) (L : Lists α) (h : α) (xs : List α) : Prop :=
  ∀ e ∈ xs, ∀ t, fate e = .moveTail t → t ≠ h ∧ ∃ ys, L t = some ys

section
variable {m : Heap α} {L : Lists α} {fate : α → Fate α}

omit [DecidableEq α] in
theorem Holds.entry_none (H : Holds m L) {h e : α} {xs : List α} (hh : L h = some xs)
    (he : e ∈ xs) : e ≠ h ∧ L e = none := by
  have hne : e ≠ h := fun heq => (List.nodup_cons.mp (H.ring h xs hh).nodup).1 (heq ▸ he)
  cases hL : L e with
  | none => exact ⟨hne, rfl⟩
  | some ys => exact absurd (List.mem_cons_of_mem h he) (H.other hh hL hne List.mem_cons_self)

/-- One round: `y` is kept or leaves the list. -/
theorem dispose_holds (H : Holds m L) {h y : α} {as bs : List α}
    (hh : L h = some (as ++ y :: bs)) (ht : Targets fate L h (y :: bs)) :
    ∃ L1, Holds (dispose fate m y) L1 ∧ L1 h = some (as ++ kept fate [y] ++ bs) ∧
      (∀ t ys, t ≠ h → L t = some ys → L1 t = some (ys ++ movedTo fate t [y])) ∧
      (fate y = .delInit → L1 y = some []) := by
  have hy : y ∈ as ++ y :: bs := by simp
  obtain ⟨hyh, hynone⟩ := H.entry_none hh hy
  have herase : (as ++ y :: bs).erase y = as ++ bs := by
    have hnodup := (List.nodup_cons.mp (H.ring h _ hh).nodup).2
    rw [List.nodup_middle, List.nodup_cons] at hnodup
    rw [List.erase_append_right _ fun hm => hnodup.1 (List.mem_append_left bs hm),
      List.erase_cons_head]
  have hne : ∀ t ys, L t = some ys → t ≠ y := by
    rintro t ys hL rfl
    rw [hynone] at hL
    cases hL
  cases hf : fate y with
  | keep =>
    refine ⟨L, by simpa [dispose, hf] using H, by simpa [kept, hf] using hh, ?_, by simp⟩
    intro t ys _ hL
    simpa [movedTo, hf] using hL
  | del =>
    refine ⟨_, by simpa [dispose, hf] using listDel_holds H hh hy, ?_, ?_, by simp⟩
    · simp [lists_set, kept, hf, herase]
    · intro t ys hth hL
      simp [lists_set, movedTo, hf, hth, hL]
  | delInit =>
    refine ⟨_, by simpa [dispose, hf] using listDelInit_holds H hh hy, ?_, ?_, ?_⟩
    · simp [lists_set, kept, hf, herase, hyh.symm]
    · intro t ys hth hL
      simp [lists_set, movedTo, hf, hth, hL, hne t ys hL]
    · simp [lists_set]
  | moveTail t =>
    obtain ⟨hth, ys, hL⟩ := ht y List.mem_cons_self t hf
    have hset : L.set h ((as ++ y :: bs).erase y) t = some ys := by rw [lists_set, if_neg hth, hL]
    refine ⟨_, by simpa [dispose, hf] using listMoveTail_holds H hh hy hset, ?_, ?_, by simp⟩
    · simp [lists_set, kept, hf, herase, hth.symm]
    · intro t' ys' hth' hL'
      by_cases htt : t' = t
      · subst htt
        obtain rfl := Option.some.inj (hL.symm.trans hL')
        simp [lists_set, movedTo, hf]
      · simp [lists_set, movedTo, hf, hth', hL', htt, Ne.symm htt]

/-- The rounds from `bs` on; `as` are the entries kept so far. -/
theorem safeLoop_holds (H : Holds m L) {h : α} (as bs : List α) (hh : L h = some (as ++ bs))
    (ht : Targets fate L h bs) {fuel : Nat} (hfuel : bs.length < fuel) :
    ∃ m' L', safeLoop (dispose fate) h fuel m (bs.headD h) (m.next (bs.headD h)) = some m' ∧
      Holds m' L' ∧ L' h = some (as ++ kept fate bs) ∧
      (∀ t ys, t ≠ h → L t = some ys → L' t = some (ys ++ movedTo fate t bs)) ∧
      ∀ e ∈ bs, fate e = .delInit → L' e = some [] := by
  induction bs generalizing as m L fuel with
  | nil =>
    obtain ⟨fuel, rfl⟩ := Nat.exists_eq_succ_of_ne_zero (Nat.ne_of_gt hfuel)
    refine ⟨m, L, by rw [safeLoop, List.headD_nil, if_pos rfl], H, hh, ?_, by simp⟩
    intro t ys _ hL
    simpa [movedTo] using hL
  | cons y bs ih =>
    obtain ⟨fuel, rfl⟩ := Nat.exists_eq_succ_of_ne_zero (by omega : fuel ≠ 0)
    have hpath := (path_append h as y bs h).mp (H.ring h _ hh).path
    obtain ⟨hyh, hynone⟩ := H.entry_none hh (by simp : y ∈ as ++ y :: bs)
    obtain ⟨L1, H1, hh1, ht1, hinit⟩ := dispose_holds H hh ht
    have htargets : Targets fate L1 h bs := by
      intro e he t hf
      obtain ⟨hth, ys, hL⟩ := ht e (List.mem_cons_of_mem y he) t hf
      exact ⟨hth, _, ht1 t ys hth hL⟩
    obtain ⟨m', L', hloop, H', hh', ht', hinit'⟩ :=
      ih H1 _ hh1 htargets (by simpa using hfuel : bs.length < fuel)
    refine ⟨m', L', ?_, H', ?_, ?_, ?_⟩
    · rw [safeLoop, List.headD_cons, if_neg hyh, path_next hpath.2]
      exact hloop
    · rw [hh', List.append_assoc, kept, kept, kept, ← List.filter_append, List.singleton_append]
    · intro t ys hth hL
      rw [ht' t _ hth (ht1 t ys hth hL), List.append_assoc, movedTo, movedTo, movedTo,
        ← List.filter_append, List.singleton_append]
    · intro e he hf
      rcases List.mem_cons.mp he with rfl | he
      · rw [ht' e [] hyh (hinit hf), movedTo, List.filter_eq_nil_iff.mpr, List.append_nil]
        intro e' he' heq
        obtain ⟨-, ys, hL⟩ := ht e' (List.mem_cons_of_mem e he') e (of_decide_eq_true heq)
        rw [hynone] at hL
        cases hL
      · exact hinit' e he hf

end

/-- **The safe loop.** With a body that takes entries out of the list, for good or to the
end of other lists, the loop ends; the entries kept stay in their order, every list has
got the ones moved to it, in the order of the loop, and those taken out with
`list_del_init` are empty lists. -/
theorem forEachEntrySafe_filter {m : Heap α} {L : Lists α} (fate : α → Fate α) (H : Holds m L)
    {h : α} {xs : List α} (hh : L h = some xs) (ht : Targets fate L h xs) {fuel : Nat}
    (hfuel : xs.length < fuel) :
    ∃ m' L', forEachEntrySafe (dispose fate) h fuel m = some m' ∧ Holds m' L' ∧
      L' h = some (kept fate xs) ∧
      (∀ t ys, t ≠ h → L t = some ys → L' t = some (ys ++ movedTo fate t xs)) ∧
      ∀ e ∈ xs, fate e = .delInit → L' e = some [] := by
  unfold forEachEntrySafe
  rw [path_next (H.ring h xs hh).path]
  exact safeLoop_holds H [] xs hh ht hfuel

/-- One entry is kept, one moved behind the list `9`, one taken out for good and one made
a list. -/
def sampleFate : Nat → Fate Nat
  | 1 => .moveTail 9
  | 4 => .delInit
  | 5 => .del
  | _ => .keep

theorem forEachEntrySafe_filter_sample : ∃ m' L',
    forEachEntrySafe (dispose sampleFate) 0 5 (sampleOps.foldl exec (⟨id, id⟩ : Heap Nat)) =
        some m' ∧
      Holds m' L' ∧ L' 0 = some [3] ∧ L' 9 = some [2, 1] ∧ L' 4 = some [] := by
  have ht : Targets sampleFate (twoLists [3, 1, 4, 5] [2]) 0 [3, 1, 4, 5] := by
    intro e he t hf
    simp only [List.mem_cons, List.not_mem_nil, or_false] at he
    obtain rfl | rfl | rfl | rfl := he
    · cases hf
    · obtain rfl : 9 = t := Fate.moveTail.inj hf
      exact ⟨by decide, [2], rfl⟩
    · cases hf
    · cases hf
  obtain ⟨m', L', hloop, hholds, h0, hmoved, hinit⟩ := forEachEntrySafe_filter sampleFate
    (run_holds (holds_none ⟨id, id⟩) run_sample) rfl ht (by decide : _ < 5)
  exact ⟨m', L', hloop, hholds, h0, hmoved 9 [2] (by decide) rfl, hinit 4 (by decide) rfl⟩

/-! ## The list itself taken out -/

/-- **`list_del` on a list.** The comment says it makes the list empty. It takes the list
out of the ring of its entries, its own links stay, and no loop over it comes to its end. -/
theorem listDel_head {m : Heap α} {L : Lists α} (H : Holds m L) {h x : α} {xs : List α}
    (hh : L h = some (x :: xs)) :
    listEmpty (listDel m h) h = false ∧
      ∀ fuel, forEachEntry (listDel m h) h fuel = none ∧
        forEachEntryReverse (listDel m h) h fuel = none := by
  have hr := H.ring h _ hh
  obtain ⟨hout, -⟩ := List.nodup_cons.mp hr.nodup
  have hring : Linked (listDel m h).next (listDel m h).prev x xs := by
    have hdel := linked_del xs [] (ring_rotate hr)
    rwa [List.append_nil] at hdel
  have hprev : m.prev h = xs.getLastD x := path_prev hr.path.2
  have hlast := getLastD_mem x xs
  have hxh : h ≠ x := fun he => hout (he ▸ List.mem_cons_self)
  have hnext' : (listDel m h).next h = x := by
    refine (delBetween_next m fun he => hout ?_).trans hr.path.1.1
    rw [he, hprev]
    exact hlast
  have hprev' : (listDel m h).prev h = xs.getLastD x := by
    refine (delBetween_prev m fun he => hxh ?_).trans hprev
    rw [he, hr.path.1.1]
  refine ⟨by rw [listEmpty, hnext']; exact decide_eq_false hxh.symm, fun fuel => ⟨?_, ?_⟩⟩
  · rw [forEachEntry, hnext']
    exact walk_outside hring hout fuel List.mem_cons_self
  · rw [forEachEntryReverse, hprev']
    refine walk_outside (ring_reverse hring) ?_ fuel ?_
    · rwa [List.mem_cons, List.mem_reverse, ← List.mem_cons]
    · rwa [List.mem_cons, List.mem_reverse, ← List.mem_cons]

theorem listDel_head_sample :
    let m : Heap Nat := listDel (sampleOps.foldl exec ⟨id, id⟩) 0
    listEmpty m 0 = false ∧
      ∀ fuel, forEachEntry m 0 fuel = none ∧ forEachEntryReverse m 0 fuel = none :=
  @listDel_head _ _ _ _ (run_holds (holds_none ⟨id, id⟩) run_sample) 0 3 [1, 4, 5] rfl

end X64SmpOs.ListHead
