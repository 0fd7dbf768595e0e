import ProxBack.Lib.Calendar

/-! The date values of ECMAScript, in milliseconds of a local clock whose zone keeps its offset. -/
namespace ProxBack.Lib.JsDate
open Calendar

def day (t : Int) : Int := t / 86400000

def getHours (t : Int) : Int := t % 86400000 / 3600000

def getMinutes (t : Int) : Int := t % 3600000 / 60000

def getSeconds (t : Int) : Int := t % 60000 / 1000

def getMilliseconds (t : Int) : Int := t % 1000

def getFullYear (t : Int) : Int := monthOf (day t) / 12

def getMonth (t : Int) : Int := monthOf (day t) % 12

def getDate (t : Int) : Int := dayOfMonth (day t)

def getDay (t : Int) : Int := weekday (day t)

def makeTime (hour minute second ms : Int) : Int :=
  hour * 3600000 + minute * 60000 + second * 1000 + ms

def makeDay (year month date : Int) : Int := monthStart (12 * year + month) + date - 1

def makeDate (day time : Int) : Int := day * 86400000 + time

def makeFullYear (year : Int) : Int := if 0 ≤ year ∧ year ≤ 99 then 1900 + year else year

/-- `new Date` of the parts. -/
def ofParts (year month date hour minute second ms : Int) : Int :=
  makeDate (makeDay (makeFullYear year) month date) (makeTime hour minute second ms)

def setSeconds (t second ms : Int) : Int :=
  makeDate (day t) (makeTime (getHours t) (getMinutes t) second ms)

def setMinutes (t minute : Int) : Int :=
  makeDate (day t) (makeTime (getHours t) minute (getSeconds t) (getMilliseconds t))

def setHours (t hour minute : Int) : Int :=
  makeDate (day t) (makeTime hour minute (getSeconds t) (getMilliseconds t))

def setDate (t date : Int) : Int := makeDate (makeDay (getFullYear t) (getMonth t) date) (t % 86400000)

section
variable {t : Int}

@[grind =] theorem ofParts_parts (hyear : 100 ≤ getFullYear t) (ms : Int) :
    ofParts (getFullYear t) (getMonth t) (getDate t) (getHours t) (getMinutes t) (getSeconds t) ms =
      t / 1000 * 1000 + ms := by
  have hmonth : 12 * getFullYear t + getMonth t = monthOf (day t) := by
    unfold getFullYear getMonth
    omega
  have hday := monthStart_dayOfMonth (day t)
  rw [ofParts, makeFullYear, if_neg (by omega), makeDay, hmonth, getDate, hday]
  unfold makeDate makeTime getHours getMinutes getSeconds day
  omega

@[grind =] theorem ofParts_month (hyear : 100 ≤ getFullYear t) (n date hour minute : Int) :
    ofParts (getFullYear t) (getMonth t + n) date hour minute 0 0 =
      ((monthStart (monthOf (day t) + n) + date - 1) * 1440 + hour * 60 + minute) * 60000 := by
  have hmonth : 12 * getFullYear t + (getMonth t + n) = monthOf (day t) + n := by
    unfold getFullYear getMonth
    omega
  rw [ofParts, makeFullYear, if_neg (by omega), makeDay, hmonth]
  unfold makeDate makeTime
  omega

@[grind =] theorem setDate_add (t n : Int) : setDate t (getDate t + n) = t + n * 86400000 := by
  have hmonth : 12 * getFullYear t + getMonth t = monthOf (day t) := by
    unfold getFullYear getMonth
    omega
  have hday := monthStart_dayOfMonth (day t)
  rw [setDate, makeDay, hmonth, getDate]
  unfold makeDate
  unfold day at hday ⊢
  omega

@[simp] theorem setMinutes_minute (k minute : Int) :
    setMinutes (k * 60000) minute = (k / 60 * 60 + minute) * 60000 := by
  unfold setMinutes makeDate makeTime getHours getSeconds getMilliseconds day
  omega

@[simp] theorem setSeconds_zero (t : Int) : setSeconds t 0 0 = t / 60000 * 60000 := by
  unfold setSeconds makeDate makeTime getHours getMinutes day
  omega

@[grind =]
theorem setHours_next (t : Int) : setHours t (getHours t + 1) (getMinutes t) = t + 3600000 := by
  unfold setHours makeDate makeTime getHours getMinutes getSeconds getMilliseconds day
  omega

@[simp] theorem setHours_minute (k hour minute : Int) :
    setHours (k * 60000) hour minute = (k / 1440 * 1440 + hour * 60 + minute) * 60000 := by
  unfold setHours makeDate makeTime getSeconds getMilliseconds day
  omega

end

end ProxBack.Lib.JsDate
