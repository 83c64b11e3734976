import Zed.ActionLog.Owned
import Zed.ActionLog.Snapshots

namespace zed.action_log

open zed.rope zed.rope.Rope zed.text
open zed.text.Patch (apply_from)

end zed.action_log
