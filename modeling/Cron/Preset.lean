import Cron.Schedule.Basic

-- Schedules with names of their own. Weekdays are written by name, so that a preset means the same
-- in both dialects.

namespace Cron

def presets : List (String × String) := [
  ("yearly", "0 0 1 1 * *"),
  ("annually", "0 0 1 1 * *"),
  ("monthly", "0 0 1 * * *"),
  ("weekly", "0 0 * * SUN *"),
  ("daily", "0 0 * * * *"),
  ("midnight", "0 0 * * * *"),
  ("hourly", "0 * * * * *"),
  ("every_minute", "* * * * * *"),
  ("weekdays_9am", "0 9 * * MON-FRI *"),
  ("weekdays_6pm", "0 18 * * MON-FRI *"),
  ("business_start", "0 8 * * MON-FRI *"),
  ("business_end", "0 17 * * MON-FRI *"),
  ("business_hours_15min", "*/15 9-17 * * MON-FRI *"),
  ("business_hours_hourly", "0 9-17 * * MON-FRI *"),
  ("every_5_min", "*/5 * * * * *"),
  ("every_15_min", "*/15 * * * * *"),
  ("every_30_min", "*/30 * * * * *"),
  ("every_2_hours", "0 */2 * * * *"),
  ("every_4_hours", "0 */4 * * * *"),
  ("every_6_hours", "0 */6 * * * *"),
  ("twice_daily", "0 0,12 * * * *"),
  ("three_times_daily", "0 8,12,18 * * * *"),
  ("weekends_noon", "0 12 * * SAT,SUN *"),
  ("nightly_2am", "0 2 * * * *"),
  ("nightly_3am", "0 3 * * * *"),
  ("sunday_maintenance", "0 3 * * SUN *"),
  ("first_of_month", "0 6 1 * * *"),
  ("quarterly", "0 0 1 JAN,APR,JUL,OCT * *")]

end Cron
