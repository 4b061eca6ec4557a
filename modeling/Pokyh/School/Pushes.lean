import Pokyh.Lib.Documents

/-!
# School — Pushes

What a phone is told of a todo that is due and of a reminder (`services/pushNotices.ts`, `services/apns.ts`): texts are cut by characters, Apple's
limit is in bytes.

* `todo_fits`: what is sent for a todo is never too large.
* `pushes_fit_iff`: **what is sent for a reminder fits exactly while its title and text cost little enough in JSON**.
* `plain_fits`: without control characters they always do.
-/

namespace Pokyh.School.Pushes
open Pokyh.Lib

/-! ### Notices -/

structure ApnsAlert where
  title : Units
  titleKey : Units
  titleArgs : Option (List Units)
  body : Units
  bodyKey : Option Units
  bodyArgs : Option (List Units)
  thread : Units
  url : Units

inductive PushKind where
  | messages
  | todos
  | reminders

structure WebPushPayload where
  title : Units
  body : Units
  url : Units

structure PushNotice where
  kind : PushKind
  web : WebPushPayload
  apns : ApnsAlert
  collapseId : Option Units

/-- An id that the database makes. -/
structure Uuid where
  text : Units
  length : text.length = 36
  chars : ∀ u ∈ text, u ∈ units "0123456789abcdef-"

structure Todo where
  id : Uuid
  title : Units
  short : title.length ≤ 500

structure Reminder where
  id : Uuid
  title : Units
  body : Option Units
  short : title.length ≤ 500
  body_short : ∀ text ∈ body, text.length ≤ 5000

def todoDueNotice (todo : Todo) : PushNotice where
  kind := .todos
  web := { title := units "Todo fällig: " ++ todo.title, body := units "Tippe um es zu sehen", url := units "/todos" }
  apns := {
    title := units "Todo fällig: " ++ todo.title
    titleKey := units "push.todo.due"
    titleArgs := some [todo.title]
    body := units "Tippe um es zu sehen"
    bodyKey := some (units "push.tapToOpen")
    bodyArgs := none
    thread := units "todos"
    url := units "/todos/" ++ todo.id.text }
  collapseId := some (units "todo-" ++ todo.id.text)

/-- What the class wrote, without white space around it. -/
def Reminder.text (reminder : Reminder) : Units := (reminder.body.map trimUnits).getD []

def reminderNotice (reminder : Reminder) : PushNotice :=
  let body := if reminder.text = [] then units "Tippe um sie zu sehen" else reminder.text
  { kind := .reminders
    web := { title := units "Erinnerung: " ++ reminder.title, body := body, url := units "/reminders" }
    apns := {
      title := units "Erinnerung: " ++ reminder.title
      titleKey := units "push.reminder"
      titleArgs := some [reminder.title]
      body := body
      bodyKey := if reminder.text = [] then some (units "push.tapToOpen") else none
      bodyArgs := none
      thread := units "reminders"
      url := units "/reminders/" ++ reminder.id.text }
    collapseId := some (units "reminder-" ++ reminder.id.text) }

/-! ### The payload -/

def MAX_PAYLOAD_BYTES : ℕ := 4096

def MAX_ARG_CHARS : ℕ := 240

def clip (text : Units) (max : ℕ) : Units := if text.length > max then text.take (max - 1) ++ units "…" else text

/-- The arguments of a text, where there are any. -/
def locArgs (key : String) (args : Option (List Units)) : List (Units × Document) :=
  match args.getD [] with
  | [] => []
  | args => [(units key, .list (args.map fun a => clip a MAX_ARG_CHARS))]

def apsAlert (alert : ApnsAlert) (body : Units) : List (Units × Document) :=
  let bodyKey := alert.bodyKey.filter (· ≠ [])
  [(units "title", .text (clip alert.title MAX_ARG_CHARS)), (units "title-loc-key", .text alert.titleKey)] ++
    locArgs "title-loc-args" alert.titleArgs ++ [(units "body", .text body)] ++
    (bodyKey.elim [] fun key => [(units "loc-key", .text key)]) ++ bodyKey.elim [] fun _ => locArgs "loc-args" alert.bodyArgs

def payload (alert : ApnsAlert) (body : Units) : Document :=
  .record [(units "aps", .record [(units "alert", .record (apsAlert alert body)), (units "sound", .text (units "default")),
    (units "thread-id", .text alert.thread)]), (units "url", .text alert.url)]

/-- The text that is sent; a long body is cut once more when it is too large. -/
def buildPayload (alert : ApnsAlert) : Units :=
  let json := (payload alert (clip alert.body 1000)).stringify
  if byteLength json > MAX_PAYLOAD_BYTES then (payload alert (clip alert.body 200)).stringify else json

/-! ### Its size -/

/-- What a text costs that is cut to so many characters. -/
def shown (max : ℕ) (text : Units) : ℕ := if text.length ≤ max then cost text else cost (text.take (max - 1)) + 3

theorem cost_clip (text : Units) (max : ℕ) : cost (clip text max) = shown max text := by
  have hmark : units "…" = [0x2026] := by decide
  rw [clip, shown]
  rcases Nat.lt_or_ge max text.length with hlong | hshort
  · rw [if_pos hlong, if_neg (Nat.not_le.mpr hlong), hmark, cost_append]
    · rfl
    · intro v hv
      obtain rfl := Option.some.inj hv
      decide
  · rw [if_neg (Nat.not_lt.mpr hshort), if_pos hshort]

/-- A title behind its label. -/
theorem cost_clip_label {label : Units} (hlabel : label.any isHighSurrogate = false) (title : Units) {max : ℕ}
    (hmax : label.length < max) : cost (clip (label ++ title) max) = cost label + shown (max - label.length) title := by
  rw [cost_clip, shown, shown, List.length_append]
  by_cases hshort : title.length ≤ max - label.length
  · rw [if_pos (by omega), if_pos hshort, cost_behind hlabel]
  · have hlength : label.length ≤ max - 1 := by omega
    rw [if_neg (by omega), if_neg hshort, List.take_append, List.take_of_length_le hlength, cost_behind hlabel, Nat.add_assoc]
    congr 4
    omega

theorem cost_id (id : Uuid) : cost id.text = 36 := by
  have hall : ∀ us : Units, (∀ u ∈ us, u ∈ units "0123456789abcdef-") → cost us = us.length := by
    intro us
    induction us with
    | nil => intro _; rfl
    | cons u us ih =>
        intro h
        have hchars : (units "0123456789abcdef-").all (fun u => unitCost u = 1 && !isHighSurrogate u) = true := by decide +kernel
        have hu := List.all_eq_true.mp hchars u (h u List.mem_cons_self)
        rw [Bool.and_eq_true, Bool.not_eq_true', decide_eq_true_eq] at hu
        rw [cost_cons us hu.2, hu.1, ih fun v hv => h v (List.mem_cons_of_mem _ hv), List.length_cons, Nat.add_comm]
  exact (hall id.text id.chars).trans id.length

/-- What a payload with one argument takes. -/
theorem byteLength_payload (title titleKey arg body thread url : Units) (bodyKey : Option Units) (text : Units) (hkey : ∀ key ∈ bodyKey, key ≠ []) :
    byteLength (payload ⟨title, titleKey, some [arg], text, bodyKey, none, thread, url⟩ body).stringify =
      cost (clip title MAX_ARG_CHARS) + cost titleKey + cost (clip arg MAX_ARG_CHARS) + cost body + (bodyKey.elim 0 fun key => cost key + 13) +
        cost thread + cost url + 123 := by
  have hkeys : cost (units "aps") = 3 ∧ cost (units "alert") = 5 ∧ cost (units "title") = 5 ∧ cost (units "title-loc-key") = 13 ∧
      cost (units "title-loc-args") = 14 ∧ cost (units "body") = 4 ∧ cost (units "loc-key") = 7 ∧ cost (units "sound") = 5 ∧
      cost (units "default") = 7 ∧ cost (units "thread-id") = 9 ∧ cost (units "url") = 3 := by decide +kernel
  obtain ⟨haps, halert, htitle, htitleKey, htitleArgs, hbody, hlocKey, hsound, hdefault, hthread, hurl⟩ := hkeys
  cases bodyKey with
  | none =>
      simp (disch := decide) only [payload, apsAlert, locArgs, Document.stringify, stringifyFields, stringifyField, Lib.stringify, quoteAll,
        Option.getD_some, Option.filter_none, Option.elim_none, List.map_cons, List.map_nil, List.append_nil,
        List.cons_append, List.nil_append, List.append_assoc, byteLength_ascii, byteLength_quote, haps, halert, htitle, htitleKey, htitleArgs, hbody,
        hsound, hdefault, hthread, hurl, byteLength.eq_1]
      omega
  | some key =>
      have hkey' : decide (key ≠ []) = true := decide_eq_true (hkey key rfl)
      simp (disch := decide) only [payload, apsAlert, locArgs, Document.stringify, stringifyFields, stringifyField, Lib.stringify, quoteAll,
        Option.getD_some, Option.getD_none, Option.filter_some, hkey', if_true, Option.elim_some, List.map_cons, List.map_nil, List.append_nil,
        List.cons_append, List.nil_append, List.append_assoc, byteLength_ascii, byteLength_quote, haps, halert, htitle, htitleKey, htitleArgs, hbody,
        hlocKey, hsound, hdefault, hthread, hurl, byteLength.eq_1]
      omega

/-- The longer body is sent when it fits, and else the shorter one. -/
theorem buildPayload_fits_iff (alert : ApnsAlert) : byteLength (buildPayload alert) ≤ MAX_PAYLOAD_BYTES ↔
    byteLength (payload alert (clip alert.body 1000)).stringify ≤ MAX_PAYLOAD_BYTES ∨
      byteLength (payload alert (clip alert.body 200)).stringify ≤ MAX_PAYLOAD_BYTES := by
  rw [buildPayload]
  split
  · rename_i hlarge
    exact ⟨.inr, fun h => h.resolve_left (Nat.not_le.mpr hlarge)⟩
  · rename_i hsmall
    exact ⟨.inl, fun _ => Nat.not_lt.mp hsmall⟩

/-- No character takes more than six bytes. -/
theorem shown_le {max : ℕ} (hmax : 0 < max) (text : Units) : shown max text ≤ 6 * max := by
  rw [shown]
  split
  · have hcost := cost_le text
    omega
  · have hcut := cost_le (text.take (max - 1))
    have hlength := List.length_take_le (max - 1) text
    omega

def Fits (notice : PushNotice) : Prop := byteLength (buildPayload notice.apns) ≤ MAX_PAYLOAD_BYTES

/-- What is sent for a todo is never too large. -/
theorem todo_fits (todo : Todo) : Fits (todoDueNotice todo) := by
  have htexts : cost (units "Todo fällig: ") = 14 ∧ (units "Todo fällig: ").length = 13 ∧ cost (units "push.todo.due") = 13 ∧
      cost (units "push.tapToOpen") = 14 ∧ cost (units "todos") = 5 ∧ cost (units "/todos/") = 7 ∧
      clip (units "Tippe um es zu sehen") 1000 = units "Tippe um es zu sehen" ∧ cost (units "Tippe um es zu sehen") = 20 := by decide +kernel
  obtain ⟨hlabel, hlength, hkey, htap, hthread, hpath, hclip, hbody⟩ := htexts
  have hplain : (units "Todo fällig: ").any isHighSurrogate = false := by decide +kernel
  have hpathPlain : (units "/todos/").any isHighSurrogate = false := by decide +kernel
  have htitle := shown_le (show 0 < 227 by decide) todo.title
  have harg := shown_le (show 0 < 240 by decide) todo.title
  rw [Fits, buildPayload_fits_iff]
  refine .inl ?_
  rw [todoDueNotice, hclip, byteLength_payload _ _ _ _ _ _ _ _ (by rintro _ ⟨⟩; decide), MAX_ARG_CHARS,
    cost_clip_label hplain _ (by rw [hlength]; decide), cost_clip, cost_behind hpathPlain, cost_id, hlabel, hlength, hkey, hthread, hpath, hbody,
    Option.elim_some, htap, MAX_PAYLOAD_BYTES]
  simp only [Nat.reduceSub]
  omega

/-- What a reminder's title and text cost. -/
def Reminder.costs (r : Reminder) (max : ℕ) : ℕ := shown 228 r.title + shown 240 r.title + shown max r.text

theorem byteLength_reminder {r : Reminder} (htext : r.text ≠ []) (max : ℕ) :
    byteLength (payload (reminderNotice r).apns (clip r.text max)).stringify = r.costs max + 204 := by
  have htexts : cost (units "Erinnerung: ") = 12 ∧ (units "Erinnerung: ").length = 12 ∧ cost (units "push.reminder") = 13 ∧
      cost (units "reminders") = 9 ∧ cost (units "/reminders/") = 11 := by decide +kernel
  obtain ⟨hlabel, hlength, hkey, hthread, hpath⟩ := htexts
  have hplain : (units "Erinnerung: ").any isHighSurrogate = false := by decide +kernel
  have hpathPlain : (units "/reminders/").any isHighSurrogate = false := by decide +kernel
  simp only [reminderNotice, if_neg htext]
  rw [byteLength_payload _ _ _ _ _ _ _ _ (by rintro _ ⟨⟩), MAX_ARG_CHARS, cost_clip_label hplain _ (by rw [hlength]; decide), cost_clip,
    cost_clip, cost_behind hpathPlain, cost_id, hlabel, hlength, hkey, hthread, hpath, Option.elim_none, Reminder.costs]
  simp only [Nat.reduceSub]
  omega

/-- A reminder without a text has a body of its own. -/
theorem bare_fits {r : Reminder} (htext : r.text = []) : Fits (reminderNotice r) := by
  have htexts : cost (units "Erinnerung: ") = 12 ∧ (units "Erinnerung: ").length = 12 ∧ cost (units "push.reminder") = 13 ∧
      cost (units "push.tapToOpen") = 14 ∧ cost (units "reminders") = 9 ∧ cost (units "/reminders/") = 11 ∧
      clip (units "Tippe um sie zu sehen") 1000 = units "Tippe um sie zu sehen" ∧ cost (units "Tippe um sie zu sehen") = 21 := by
    decide +kernel
  obtain ⟨hlabel, hlength, hkey, htap, hthread, hpath, hclip, hbody⟩ := htexts
  have hplain : (units "Erinnerung: ").any isHighSurrogate = false := by decide +kernel
  have hpathPlain : (units "/reminders/").any isHighSurrogate = false := by decide +kernel
  have htitle := shown_le (show 0 < 228 by decide) r.title
  have harg := shown_le (show 0 < 240 by decide) r.title
  rw [Fits, buildPayload_fits_iff]
  refine .inl ?_
  simp only [reminderNotice, if_pos htext]
  rw [hclip, byteLength_payload _ _ _ _ _ _ _ _ (by rintro _ ⟨⟩; decide), MAX_ARG_CHARS,
    cost_clip_label hplain _ (by rw [hlength]; decide), cost_clip, cost_behind hpathPlain, cost_id, hlabel, hlength, hkey, hthread, hpath, hbody,
    Option.elim_some, htap, MAX_PAYLOAD_BYTES]
  simp only [Nat.reduceSub]
  omega

theorem reminder_fits_iff (r : Reminder) : Fits (reminderNotice r) ↔ r.text = [] ∨ min (r.costs 1000) (r.costs 200) ≤ 3892 := by
  by_cases htext : r.text = []
  · exact iff_of_true (bare_fits htext) (.inl htext)
  · have hbody : (reminderNotice r).apns.body = r.text := by simp [reminderNotice, htext]
    rw [Fits, buildPayload_fits_iff, hbody, byteLength_reminder htext, byteLength_reminder htext, MAX_PAYLOAD_BYTES, or_iff_right htext]
    omega

/-- A reminder without control characters fits, however long its texts are. -/
theorem plain_fits {r : Reminder} (htitle : isPlain r.title = true) (htext : isPlain r.text = true) : Fits (reminderNotice r) := by
  have hshown : ∀ {text : Units} {max : ℕ}, isPlain text = true → 0 < max → shown max text ≤ 3 * max + 3 := by
    intro text max hplain hmax
    rw [shown]
    split
    · have hcost := cost_take hplain text.length
      rw [List.take_length] at hcost
      omega
    · have hcost := cost_take hplain (max - 1)
      omega
  have h228 := hshown htitle (show 0 < 228 by decide)
  have h240 := hshown htitle (show 0 < 240 by decide)
  have h200 := hshown htext (show 0 < 200 by decide)
  refine (reminder_fits_iff r).mpr (.inr (min_le_iff.mpr (.inr ?_)))
  rw [Reminder.costs]
  omega

/-- What a phone is told of a todo or of a reminder. -/
def noticeOf : Todo ⊕ Reminder → PushNotice
  | .inl todo => todoDueNotice todo
  | .inr reminder => reminderNotice reminder

/-- **What is sent fits exactly while, for a reminder, its title and text cost little enough**; for a todo it always does. -/
theorem pushes_fit_iff (due : Todo ⊕ Reminder) :
    Fits (noticeOf due) ↔ ∀ r, due = .inr r → r.text = [] ∨ min (r.costs 1000) (r.costs 200) ≤ 3892 := by
  cases due with
  | inl todo => exact ⟨fun _ r hr => (nomatch hr), fun _ => todo_fits todo⟩
  | inr reminder =>
      constructor
      · rintro h r ⟨⟩
        exact (reminder_fits_iff reminder).mp h
      · intro h
        exact (reminder_fits_iff reminder).mpr (h reminder rfl)

/-- A title and a text of control characters. -/
def unprintable : Reminder where
  id := {
    text := units "6f1c2a9e-0b7d-4c55-9a3e-2d8f41b7c066"
    length := by decide +kernel
    chars := by
      have hall : (units "6f1c2a9e-0b7d-4c55-9a3e-2d8f41b7c066").all (fun u => decide (u ∈ units "0123456789abcdef-")) = true := by decide +kernel
      exact fun u hu => of_decide_eq_true (List.all_eq_true.mp hall u hu) }
  title := List.replicate 240 1
  body := some (List.replicate 200 1)
  short := by
    rw [List.length_replicate]
    decide
  body_short := by
    rintro text ⟨⟩
    rw [List.length_replicate]
    decide

/-- Its characters are written with six bytes each. -/
theorem unprintable_overflows : ¬ Fits (reminderNotice unprintable) := by
  have hcosts : unprintable.text ≠ [] ∧ unprintable.costs 1000 = 4005 ∧ unprintable.costs 200 = 4005 := by decide +kernel
  rw [reminder_fits_iff, hcosts.2.1, hcosts.2.2, or_iff_right hcosts.1]
  decide

end Pokyh.School.Pushes
